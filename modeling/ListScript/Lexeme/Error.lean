import ListScript.Position
import ListScript.Text.Quoted

/-!
# Why no lexeme could be read

`LexemeError` and what it says of itself: its message, the message of what caused it, whether
reading can go on after it (`isFatal`), and its place.
-/

namespace ListScript

/-- Why no lexeme could be read. -/
inductive LexemeError where
  /-- No lexeme begins with the character `text` at `position`. -/
  | malformed (text : String) (position : Position)
  /-- The line at `position` could not be read because of `cause`. -/
  | unreadable (position : Position) (cause : String)
  /-- The text has ended. -/
  | exhausted
  deriving DecidableEq, Repr, Inhabited

namespace LexemeError

/-- The message of the error itself. -/
def message : LexemeError → String
  | .malformed text position => "unrecognised character " ++ Text.quote text ++ s!" at {position}"
  | .unreadable position _ => s!"failed to read input at {position}"
  | .exhausted => "no more input to scan"

/-- The messages of what caused the error, the nearest cause first. -/
def causes : LexemeError → List String
  | .unreadable _ cause => [cause]
  | _ => []

/-- A malformed character can be passed over; nothing can be read after any other error. -/
def isFatal : LexemeError → Bool
  | .malformed _ _ => false
  | _ => true

/-- The place of the error. -/
def position? : LexemeError → Option Position
  | .malformed _ position => some position
  | .unreadable position _ => some position
  | .exhausted => none

end LexemeError

end ListScript
