import ListScript.Token.Error

/-!
# Why a text is no program

`SyntaxError` and what it says of itself. A token that cannot be read is reported as it is.
-/

namespace ListScript

/-- Why a text is no program. -/
inductive SyntaxError where
  | token (error : TokenError)
  /-- The token `found` stands where only `expected` could. -/
  | unexpected (found expected : String) (position : Position)
  deriving DecidableEq, Repr, Inhabited

namespace SyntaxError

/-- The message of the error itself. -/
def message : SyntaxError → String
  | .token error => error.message
  | .unexpected found expected position =>
    "unexpected token " ++ Text.quote found ++ s!" at {position}, expected {expected}"

/-- The messages of what caused the error, the nearest cause first. -/
def causes : SyntaxError → List String
  | .token error => error.causes
  | _ => []

/-- The place of the error. -/
def position? : SyntaxError → Option Position
  | .token error => error.position?
  | .unexpected _ _ position => some position

end SyntaxError

end ListScript
