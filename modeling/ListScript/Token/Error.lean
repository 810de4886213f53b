import ListScript.Lexeme.Error
import ListScript.Token.Kind

/-!
# Why there is no token

`TokenError` and what it says of itself: message, causes, whether reading can go on after it, and
place.
-/

namespace ListScript

/-- Why there is no token, or not the one asked for. -/
inductive TokenError where
  | lexeme (error : LexemeError)
  /-- The numeral `text` denotes no integer of the language. -/
  | outOfRange (text : String) (position : Position)
  /-- No token has been read yet, or the last step failed. -/
  | noCurrentToken
  /-- The token's kind is `found` and has not what a token of kind `expected` has. -/
  | wrongKind (expected found : Kind)
  /-- A step after the end of the text. -/
  | pastEnd
  deriving DecidableEq, Repr, Inhabited

namespace TokenError

/-- The message of the error itself. -/
def message : TokenError → String
  | .lexeme _ => "could not read the next token"
  | .outOfRange text position =>
    "integer literal " ++ Text.quote text ++ s!" at {position} is out of range"
  | .noCurrentToken => "no current token, call advance() first"
  | .wrongKind expected found => s!"expected a {expected} token, found {found}"
  | .pastEnd => "attempted to read past the end of input"

/-- The messages of what caused the error, the nearest cause first. -/
def causes : TokenError → List String
  | .lexeme error => error.message :: error.causes
  | _ => []

/-- Malformed characters and numerals out of range can be passed over. -/
def isFatal : TokenError → Bool
  | .lexeme error => error.isFatal
  | .outOfRange _ _ => false
  | _ => true

/-- The place of the error. -/
def position? : TokenError → Option Position
  | .lexeme error => error.position?
  | .outOfRange _ position => some position
  | _ => none

end TokenError

end ListScript
