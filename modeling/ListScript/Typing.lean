import ListScript.Scopes
import ListScript.Tree.Basic
import ListScript.Ty

/-!
# Checking types

* `Expr.infer` : the type of an expression where variables have the types of some scopes;
* `Stmt.check`, `Block.check` : statements change the types of variables by declaring them. A
  failed check leaves the scopes as the statements before the failing one left them;
* `Block.typing` : the types that a whole program gives its global variables.

Operands are checked from left to right, and the first mismatch is the error.
-/

namespace ListScript

/-- The type of the operands and of the result of an operator on integers or truth values. -/
def UnaryOp.type : UnaryOp → Ty
  | .negate => .int
  | .not => .bool

/-- The error for a name that is not declared. -/
def Ident.untyped (ident : Ident) : TypeError := .undeclared ident.name ident.position

mutual

/-- The type of an expression. -/
def Expr.infer (scopes : Scopes Ty) : Expr → Except TypeError Ty
  | .unary op operand => do op.type.expect (← operand.infer scopes)
  | .binary .add left right | .binary .multiply left right => do
    discard (Ty.int.expect (← left.infer scopes))
    Ty.int.expect (← right.infer scopes)
  | .binary .and left right => do
    discard (Ty.bool.expect (← left.infer scopes))
    Ty.bool.expect (← right.infer scopes)
  | .binary .equal left right => do
    let expected ← left.infer scopes
    discard (expected.expect (← right.infer scopes))
    return .bool
  | .binary .cons left right => do
    let head ← left.infer scopes
    let list ← right.infer scopes
    discard ((← list.element).expect head)
    return list
  | .int _ => .ok .int
  | .bool _ => .ok .bool
  | .list items => items.infer scopes
  | .var ident =>
    match scopes.lookup? ident.name with
    | some type => .ok type
    | none => .error ident.untyped

/-- The type of a list with the given elements. -/
def Exprs.infer (scopes : Scopes Ty) : Exprs → Except TypeError Ty
  | .one item => do return .list (← item.infer scopes)
  | .more item rest => do
    let first ← item.infer scopes
    let list ← rest.infer scopes
    discard (first.expect (← list.element))
    return list

end

/-- Steps over the types of variables. -/
abbrev Checking := EStateM TypeError (Scopes Ty)

namespace Checking

/-- The type of an expression where the step is taken. -/
def infer (e : Expr) : Checking Ty := fun scopes =>
  match e.infer scopes with
  | .ok type => .ok type scopes
  | .error e => .error e scopes

/-- An answer that does not depend on the scopes. -/
def ofExcept {α : Type} : Except TypeError α → Checking α
  | .ok a => pure a
  | .error e => throw e

/-- Declares a variable in the innermost scope. -/
def declare (ident : Ident) (type : Ty) : Checking Unit := fun scopes =>
  match scopes.declare? ident.name type with
  | some scopes => .ok () scopes
  | none => .error (.alreadyDeclared ident.name ident.position) scopes

/-- The type of a declared variable. -/
def typeOf (ident : Ident) : Checking Ty := fun scopes =>
  match scopes.lookup? ident.name with
  | some type => .ok type scopes
  | none => .error ident.untyped scopes

/-- A step inside a scope of its own that binds one name. The scope ends with the step, also when
it fails. -/
def inScope (name : String) (type : Ty) (body : Checking Unit) : Checking Unit := fun scopes =>
  match body (scopes.enterWith name type) with
  | .ok () after => .ok () after.exit
  | .error e after => .error e after.exit

end Checking

mutual

/-- Checks a statement. -/
def Stmt.check : Stmt → Checking Unit
  | .declare ident value => do Checking.declare ident (← Checking.infer value)
  | .assign ident value => do
    let found ← Checking.infer value
    let declared ← Checking.typeOf ident
    discard (Checking.ofExcept (declared.expect found))
  | .print value => discard (Checking.infer value)
  | .forEach ident items body => do
    let list ← Checking.infer items
    let element ← Checking.ofExcept list.element
    Checking.inScope ident.name element body.check

/-- Checks statements one after the other. -/
def Block.check : Block → Checking Unit
  | .one stmt => stmt.check
  | .more stmt rest => do
    stmt.check
    rest.check

end

/-- The types that a program gives its global variables, or its first type error. -/
def Block.typing (program : Block) : Except TypeError (Scopes Ty) :=
  match program.check Scopes.empty with
  | .ok () scopes => .ok scopes
  | .error e _ => .error e

end ListScript
