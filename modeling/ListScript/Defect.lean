import ListScript.Lexeme.Pattern
import ListScript.Text.Quoted
import ListScript.Token.Kind

/-!
# States that no input should reach

* `Defect` : what went wrong inside, with its message;
* `Stop` : why a step has no answer, an error of its own kind or a defect.

Errors belong to the input. A defect belongs to the tables a reader or a grammar was built with, or
to the limits of the output, so it is kept apart from them: nothing catches it and no error hides
it.
-/

namespace ListScript

/-- What went wrong inside. -/
inductive Defect where
  /-- An expression has no group for a category. -/
  | missingGroup (category : Category)
  /-- A symbol of the pattern is not in the table of symbols. -/
  | unknownSymbol (text : String)
  /-- A numeral has a character that is no digit. -/
  | unreadableNumeral (text : String)
  /-- A kind of token stands for a binary operator and is none. -/
  | notBinary (kind : Kind)
  /-- A kind of token stands for a unary operator and is none. -/
  | notUnary (kind : Kind)
  /-- A text has more structure than tokens. -/
  | endless
  /-- A place is too far to the right for a caret under it. -/
  | caretTooFar
  deriving DecidableEq, Repr, Inhabited

namespace Defect

/-- The opening of the messages about states that the code takes for impossible. -/
def impossible (what : String) : String :=
  "internal error: entered unreachable code: " ++ what

/-- The message of a defect. -/
def message : Defect → String
  | .missingGroup category =>
    "pattern has no `" ++ category.groupName ++ "` group for " ++ category.name
  | .unknownSymbol text => "matched symbol " ++ Text.quote text ++ " has no token kind"
  | .unreadableNumeral text =>
    impossible ("numeric lexeme " ++ Text.quote text ++
      " is not a valid literal: invalid digit found in string")
  | .notBinary kind => impossible (kind.name ++ " is not registered as a binary operator")
  | .notUnary kind => impossible (kind.name ++ " is not registered as a unary operator")
  | .endless => impossible "nested too deeply"
  | .caretTooFar => "Formatting argument out of range"

end Defect

/-- Why a step has no answer. -/
inductive Stop (ε : Type) where
  | error (cause : ε)
  | defect (cause : Defect)
  deriving DecidableEq, Repr

/-- The same stop with its error changed. -/
def Stop.map {ε δ : Type} (f : ε → δ) : Stop ε → Stop δ
  | .error cause => .error (f cause)
  | .defect cause => .defect cause

/-- The groups of the categories in an expression whose groups have the given names. The first
category without a group is the defect. -/
def Category.groups (names : List (Option String)) : Except Defect (List Nat) :=
  Category.all.mapM fun category =>
    match category.group? names with
    | some number => .ok number
    | none => .error (.missingGroup category)

end ListScript
