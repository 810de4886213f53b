import ListScript.Token.Lexicon

/-!
# The tokens of a source

* `Reader.significant` : moves past the separators and the first lexeme after them;
* `TokenStream` : a place among the tokens of a source, with the token at hand;
* `TokenStream.advance` : moves to the next token. The last token is that of the end of the text,
  and nothing follows it. A failure to read ends the tokens without one; a malformed character or a
  numeral out of range only costs the step;
* `TokenStream.items` : everything that stepping through the tokens gives, to the end;
* `tokenize` : the tokens of a text.
-/

namespace ListScript

/-- Moves past the next lexeme that is no separator; the answer is whether there is one. -/
def Reader.significant (r : Reader) : EStateM.Result LexemeError Reader Bool :=
  match hm : Reader.more r with
  | .error e s => .error e s
  | .ok false s => .ok false s
  | .ok true s =>
    match ht : Reader.take s with
    | .error e t => .error e t
    | .ok () t =>
      if hb : t.category = some .blank then
        have : t.size < r.size := Nat.lt_of_lt_of_le (size_of_take ht hb) (size_of_more hm)
        significant t
      else .ok true t
termination_by r.size

/-- A place among the tokens of a source. -/
structure TokenStream where
  lexicon : Lexicon
  reader : Reader
  /-- Whether the last token has been read or reading has failed for good. -/
  ended : Bool
  /-- The token at hand, `none` before the first and after a failed step. -/
  current : Option Token
  deriving Repr

namespace TokenStream

/-- The tokens of a source, before the first. -/
def ofSource (lexicon : Lexicon) (source : Source) : TokenStream :=
  ⟨lexicon, Reader.ofSource lexicon.pattern source, false, none⟩

/-- Whether another token or failure is still to come. -/
def hasNext (s : TokenStream) : Bool := !s.ended

/-- Moves to the next token and gives its kind. -/
def advance : EStateM (Stop TokenError) TokenStream Kind := fun s =>
  if s.ended then .error (.error .pastEnd) s
  else match s.reader.significant with
    | .ok false r =>
      .ok .endOfText
        { s with reader := r, ended := true, current := some (Token.endOfText r.span.stop) }
    | .ok true r =>
      match s.lexicon.token r with
      | .ok token => .ok token.kind { s with reader := r, current := some token }
      | .error stop => .error stop { s with reader := r, current := none }
    | .error e r =>
      if e.isFatal then
        .error (.error (.lexeme e)) { s with reader := r.close, ended := true, current := none }
      else .error (.error (.lexeme e)) { s with reader := r, current := none }

/-- The token at hand. -/
def token (s : TokenStream) : Except TokenError Token :=
  match s.current with
  | some token => .ok token
  | none => .error .noCurrentToken

/-- The kind of the token at hand. -/
def kind (s : TokenStream) : Except TokenError Kind := s.token.map Token.kind

/-- The text of the token at hand. -/
def text (s : TokenStream) : Except TokenError String := s.token.map Token.text

/-- The integer of the token at hand. -/
def int (s : TokenStream) : Except TokenError Int64 := s.token.bind Token.int

/-- The truth value of the token at hand. -/
def bool (s : TokenStream) : Except TokenError Bool := s.token.bind Token.bool

/-- The content of the token `opt` at hand. -/
def option (s : TokenStream) : Except TokenError (Option Literal) := s.token.bind Token.option

/-- Lets go of the source. The token at hand stays. -/
def close (s : TokenStream) : TokenStream := { s with reader := s.reader.close }

/-- One step of an iteration: nothing at the end, else the next token or why there is none. -/
def next (s : TokenStream) : Option (Except (Stop TokenError) Token) × TokenStream :=
  if s.ended then (none, s)
  else match s.advance with
    | .ok _ s => (some (s.token.mapError Stop.error), s)
    | .error stop s => (some (.error stop), s)

/-- What the first `n` steps of an iteration give. A defect ends it. -/
def itemsWithin : Nat → TokenStream → List (Except (Stop TokenError) Token)
  | 0, _ => []
  | n + 1, s =>
    match s.next with
    | (none, _) => []
    | (some (.error (.defect defect)), _) => [.error (.defect defect)]
    | (some item, s) => item :: itemsWithin n s

/-- Everything that an iteration gives. Every step but the last uses up a character, unless the
empty text is a symbol. -/
def items (s : TokenStream) : List (Except (Stop TokenError) Token) :=
  s.itemsWithin (s.reader.size + 1)

end TokenStream

/-- The tokens of a text, the end of the text last, or the first error in it. -/
def tokenize (text : String) : Except (Stop TokenError) (List Token) :=
  (TokenStream.ofSource Lexicon.standard (Source.ofText text)).items.mapM id

end ListScript
