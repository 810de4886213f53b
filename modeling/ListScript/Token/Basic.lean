import ListScript.Token.Error

/-!
# Tokens

* `Literal` : the content of a numeral or of a truth value;
* `Token` : a kind, the text as it stands in the source, its span and its literal;
* `Token.int`, `Token.bool`, `Token.option` : the literal of a token of which it is expected;
* `Token.label` : the kind of a token with its content.
-/

namespace ListScript

/-- The content of a token. -/
inductive Literal where
  | int (value : Int64)
  | bool (value : Bool)
  deriving DecidableEq, Repr

/-- A significant lexeme, or the end of the text. -/
structure Token where
  kind : Kind
  text : String
  span : Span
  literal : Option Literal
  deriving DecidableEq, Repr

namespace Token

/-- The token that ends a text, at `position`. -/
def endOfText (position : Position) : Token :=
  ⟨.endOfText, "", Span.empty position, none⟩

/-- The integer of a token. -/
def int (t : Token) : Except TokenError Int64 :=
  match t.literal with
  | some (.int value) => .ok value
  | _ => .error (.wrongKind .numeral t.kind)

/-- The truth value of a token. -/
def bool (t : Token) : Except TokenError Bool :=
  match t.literal with
  | some (.bool value) => .ok value
  | _ => .error (.wrongKind .boolean t.kind)

/-- The content of a token `opt`. -/
def option (t : Token) : Except TokenError (Option Literal) :=
  if t.kind = .optWord then .ok t.literal else .error (.wrongKind .optWord t.kind)

/-- The kind of a token, with its literal or, for an identifier, its text. -/
def label (t : Token) : String :=
  match t.literal with
  | some (.int value) => t.kind.name ++ "(" ++ toString value.toInt ++ ")"
  | some (.bool value) => t.kind.name ++ "(" ++ toString value ++ ")"
  | none =>
    if t.kind = .identifier then t.kind.name ++ "(" ++ Text.quote t.text ++ ")" else t.kind.name

end Token

end ListScript
