import ListScript.Text.Quoted

/-!
# Values

* `Value` : integers, truth values, texts, lists and values that may be missing;
* `Value.text` : what printing a value writes;
* `Value.shape` : the name of a value's shape;
* `Value.expectInt`, `Value.expectBool`, `Value.expectString`, `Value.expectList`,
  `Value.expectContent` : what a value of the expected shape holds. No value is taken for one of
  another shape.
-/

namespace ListScript

/-- The values of a program. -/
inductive Value where
  | int (value : Int64)
  | bool (value : Bool)
  | string (value : String)
  | list (items : List Value)
  | option (content : Option Value)
  deriving Repr, Inhabited

/-- Why a value is not what was expected. -/
inductive ValueError where
  /-- A value was expected whose shape is called `expected`; the one found is called `found`. -/
  | wrongShape (expected found : String)
  /-- A missing value was asked for. -/
  | missing
  deriving DecidableEq, Repr, Inhabited

/-- The message of the error. -/
def ValueError.message : ValueError → String
  | .wrongShape expected found => s!"expecting {expected} value, found {found}"
  | .missing => "expecting a value in an opt, found empty"

namespace Value

/-! ## Equality -/

mutual

/-- Two values are equal if they have one shape and hold the same. -/
def decEq : (a b : Value) → Decidable (a = b)
  | .int a, .int b => decidable_of_iff (a = b) (by simp)
  | .bool a, .bool b => decidable_of_iff (a = b) (by simp)
  | .string a, .string b => decidable_of_iff (a = b) (by simp)
  | .list a, .list b =>
    have := decEqList a b
    decidable_of_iff (a = b) (by simp)
  | .option none, .option none => isTrue rfl
  | .option (some a), .option (some b) =>
    have := decEq a b
    decidable_of_iff (a = b) (by simp)
  | .option none, .option (some _) | .option (some _), .option none => isFalse (by simp)
  | .int _, .bool _ | .int _, .string _ | .int _, .list _ | .int _, .option _
  | .bool _, .int _ | .bool _, .string _ | .bool _, .list _ | .bool _, .option _
  | .string _, .int _ | .string _, .bool _ | .string _, .list _ | .string _, .option _
  | .list _, .int _ | .list _, .bool _ | .list _, .string _ | .list _, .option _
  | .option _, .int _ | .option _, .bool _ | .option _, .string _ | .option _, .list _ =>
    isFalse (by simp)

/-- Two lists of values are equal if they hold equal values in the same order. -/
def decEqList : (a b : List Value) → Decidable (a = b)
  | [], [] => isTrue rfl
  | a :: as, b :: bs =>
    have := decEq a b
    have := decEqList as bs
    decidable_of_iff (a = b ∧ as = bs) (by simp)
  | [], _ :: _ | _ :: _, [] => isFalse (by simp)

end

instance : DecidableEq Value := decEq

/-! ## Text -/

mutual

/-- What printing a value writes. -/
def text : Value → String
  | .int value => toString value.toInt
  | .bool value => toString value
  | .string value => value
  | .list [] => "[]"
  | .list (item :: rest) => "[" ++ item.text ++ textAfter rest ++ "]"
  | .option (some content) => "opt " ++ content.text
  | .option none => "empty"

/-- The further elements of a list, each after a comma. -/
def textAfter : List Value → String
  | [] => ""
  | item :: rest => ", " ++ item.text ++ textAfter rest

end

/-! ## Shapes -/

/-- The name of a value's shape. -/
def shape : Value → String
  | .int _ => "an integer"
  | .bool _ => "a boolean"
  | .string _ => "a string"
  | .list _ => "a list"
  | .option _ => "an opt"

/-- The integer that a value is. -/
def expectInt : Value → Except ValueError Int64
  | .int value => .ok value
  | other => .error (.wrongShape "an integer" other.shape)

/-- The truth value that a value is. -/
def expectBool : Value → Except ValueError Bool
  | .bool value => .ok value
  | other => .error (.wrongShape "a boolean" other.shape)

/-- The text that a value is. -/
def expectString : Value → Except ValueError String
  | .string value => .ok value
  | other => .error (.wrongShape "a string" other.shape)

/-- The elements of the list that a value is. -/
def expectList : Value → Except ValueError (List Value)
  | .list items => .ok items
  | other => .error (.wrongShape "a list" other.shape)

/-- What a value holds that is not missing. -/
def expectContent : Value → Except ValueError Value
  | .option (some content) => .ok content
  | .option none => .error .missing
  | other => .error (.wrongShape "an opt" other.shape)

end Value

end ListScript
