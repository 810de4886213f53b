import ListScript.Evaluation
import ListScript.Grammar.Error
import ListScript.Ty

/-!
# Failures of any kind

* `Failure` : an error of the tokens, of the grammar, of the types or of the evaluation;
* `Failure.message`, `Failure.causes` : what the error and its causes say;
* `Failure.position?`, `Failure.name`, `Failure.tip?` : its place, its name and a hint for the
  author of the program.
-/

namespace ListScript

/-- Anything that keeps a program from being run to its end. -/
inductive Failure where
  | token (error : TokenError)
  | grammar (error : SyntaxError)
  | typing (error : TypeError)
  | evaluation (error : EvalError)
  deriving DecidableEq, Repr, Inhabited

/-- The name of an error of the tokens. -/
def TokenError.name : TokenError → String
  | .lexeme (.malformed _ _) => "UnrecognisedToken"
  | .lexeme (.unreadable _ _) => "InputError"
  | .lexeme .exhausted | .pastEnd => "PastEnd"
  | .outOfRange _ _ => "NumberParseError"
  | .noCurrentToken | .wrongKind _ _ => "TokenUsage"

/-- A hint for an error of the tokens. -/
def TokenError.tip? : TokenError → Option String
  | .outOfRange text _ => some ("Invalid number: `" ++ text ++ "`, is it above the integer limit?")
  | .lexeme (.malformed text _) => some ("`" ++ text ++ "` is not part of the language")
  | _ => none

/-- The hint for a name that is not declared. -/
def undeclaredTip (name : String) : String := "Variable `" ++ name ++ "` not declared"

/-- The hint for a name that is declared twice in a scope. -/
def alreadyDeclaredTip (name : String) : String := "Variable `" ++ name ++ "` already declared"

namespace Failure

/-- The message of the error itself. -/
def message : Failure → String
  | .token error => error.message
  | .grammar error => error.message
  | .typing error => error.message
  | .evaluation error => error.message

/-- The messages of what caused the error, the nearest cause first. -/
def causes : Failure → List String
  | .token error => error.causes
  | .grammar error => error.causes
  | .typing _ => []
  | .evaluation error => error.causes

/-- The place of the error. -/
def position? : Failure → Option Position
  | .token error => error.position?
  | .grammar error => error.position?
  | .typing error => error.position?
  | .evaluation error => error.position?

/-- The name of the error, the same for a name's errors whether they are found by its type or by
its value. -/
def name : Failure → String
  | .token error | .grammar (.token error) => error.name
  | .grammar (.unexpected _ _ _) => "UnexpectedToken"
  | .typing (.mismatch _ _) => "TypeMatchError"
  | .typing (.undeclared _ _) | .evaluation (.undeclared _ _) => "VariableNotDeclared"
  | .typing (.alreadyDeclared _ _) | .evaluation (.alreadyDeclared _ _) =>
    "VariableAlreadyDeclared"
  | .evaluation (.value _) => "ValueMatchError"
  | .evaluation (.output _) => "OutputError"

/-- A hint for the author of the program. -/
def tip? : Failure → Option String
  | .token error | .grammar (.token error) => error.tip?
  | .grammar (.unexpected found expected _) =>
    some ("Unexpected token: `" ++ found ++ "`, expected " ++ expected)
  | .typing (.mismatch expected found) =>
    some ("Expected type `" ++ expected ++ "`, received `" ++ found ++ "`")
  | .typing (.undeclared name _) | .evaluation (.undeclared name _) => some (undeclaredTip name)
  | .typing (.alreadyDeclared name _) | .evaluation (.alreadyDeclared name _) =>
    some (alreadyDeclaredTip name)
  | .evaluation (.value error) => some error.message
  | .evaluation (.output _) => none

end Failure

end ListScript
