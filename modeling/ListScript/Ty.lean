import ListScript.Position
import ListScript.Text.Quoted

/-!
# Types

* `Ty` : the types of values, and `Ty.text`, their names: the name of an element type stands
  before the word for the shape;
* `TypeError` : why a program has no type, and what it says of itself;
* `Ty.expect` : the comparison of two types; `Ty.element`, `Ty.content` : the types inside a list
  type and inside an `opt` type.
-/

namespace ListScript

/-- The types of values. -/
inductive Ty where
  | int
  | bool
  | string
  | list (element : Ty)
  | option (content : Ty)
  deriving DecidableEq, Repr, Inhabited

/-- Why a program has no type. -/
inductive TypeError where
  /-- A type was expected that is called `expected`; the one found is called `found`. -/
  | mismatch (expected found : String)
  | undeclared (name : String) (position : Position)
  | alreadyDeclared (name : String) (position : Position)
  deriving DecidableEq, Repr, Inhabited

namespace TypeError

/-- The message of the error. -/
def message : TypeError → String
  | .mismatch expected found => s!"expected type {expected}, found {found}"
  | .undeclared name position => "undeclared variable " ++ Text.quote name ++ s!" at {position}"
  | .alreadyDeclared name position =>
    "variable " ++ Text.quote name ++ s!" already declared at {position}"

/-- The place of the error. A mismatch has none. -/
def position? : TypeError → Option Position
  | .mismatch _ _ => none
  | .undeclared _ position => some position
  | .alreadyDeclared _ position => some position

end TypeError

namespace Ty

/-- The word for list types. -/
def listWord : String := "list"

/-- The word for types of values that may be missing. -/
def optionWord : String := "opt"

/-- The name of a type. -/
def text : Ty → String
  | .int => "int"
  | .bool => "bool"
  | .string => "string"
  | .list element => element.text ++ " " ++ listWord
  | .option content => content.text ++ " " ++ optionWord

instance : ToString Ty := ⟨text⟩

/-- The expected type, if the type found is the same. -/
def expect (expected found : Ty) : Except TypeError Ty :=
  if expected = found then .ok expected else .error (.mismatch expected.text found.text)

/-- The type of a list's elements. -/
def element : Ty → Except TypeError Ty
  | .list element => .ok element
  | other => .error (.mismatch listWord other.text)

/-- The type of what an `opt` may hold. -/
def content : Ty → Except TypeError Ty
  | .option content => .ok content
  | other => .error (.mismatch optionWord other.text)

end Ty

end ListScript
