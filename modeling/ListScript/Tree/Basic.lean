import ListScript.Position

/-!
# Programs as trees

* `Ident` : a name with the place where it stands;
* `Expr`, `Exprs` : expressions, and lists of one or more expressions;
* `Stmt`, `Block` : statements, and lists of one or more statements; a program is a `Block`;
* `Exprs.ofList?`, `Exprs.toList`, `Block.ofList?`, `Block.toList` : the lists of one or more, from
  and to plain lists.
-/

namespace ListScript

/-- A name with the place where it stands. -/
structure Ident where
  name : String
  position : Position
  deriving DecidableEq, Repr, Inhabited

/-- The operators with one operand. -/
inductive UnaryOp where
  | negate
  | not
  deriving DecidableEq, Repr, Inhabited

/-- The operators with two operands. `cons` puts an element in front of a list. -/
inductive BinaryOp where
  | add
  | multiply
  | and
  | equal
  | cons
  deriving DecidableEq, Repr, Inhabited

mutual

/-- Expressions. -/
inductive Expr where
  | unary (op : UnaryOp) (operand : Expr)
  | binary (op : BinaryOp) (left right : Expr)
  | int (value : Int64)
  | bool (value : Bool)
  | list (items : Exprs)
  | var (ident : Ident)

/-- One or more expressions. -/
inductive Exprs where
  | one (item : Expr)
  | more (item : Expr) (rest : Exprs)

end

deriving instance DecidableEq, Repr for Expr, Exprs

instance : Inhabited Expr := ⟨.bool false⟩

mutual

/-- Statements. -/
inductive Stmt where
  /-- Declares a variable in the innermost scope. -/
  | declare (ident : Ident) (value : Expr)
  /-- Gives a declared variable another value. -/
  | assign (ident : Ident) (value : Expr)
  | print (value : Expr)
  /-- Runs a block once for every element of a list, each time in a scope of its own. -/
  | forEach (ident : Ident) (items : Expr) (body : Block)

/-- One or more statements. -/
inductive Block where
  | one (stmt : Stmt)
  | more (stmt : Stmt) (rest : Block)

end

deriving instance DecidableEq, Repr for Stmt, Block

instance : Inhabited Stmt := ⟨.print default⟩

namespace Exprs

/-- The expressions in order. -/
def toList : Exprs → List Expr
  | .one item => [item]
  | .more item rest => item :: rest.toList

/-- An expression and those after it. -/
def ofCons (item : Expr) : List Expr → Exprs
  | [] => .one item
  | next :: rest => .more item (ofCons next rest)

/-- The list of some expressions; there is none without an expression. -/
def ofList? : List Expr → Option Exprs
  | [] => none
  | item :: rest => some (ofCons item rest)

@[simp] theorem toList_ofCons (item : Expr) (rest : List Expr) :
    (ofCons item rest).toList = item :: rest := by
  induction rest generalizing item with
  | nil => rfl
  | cons next rest ih => simp [ofCons, toList, ih]

end Exprs

namespace Block

/-- The statements in order. -/
def toList : Block → List Stmt
  | .one stmt => [stmt]
  | .more stmt rest => stmt :: rest.toList

/-- A statement and those after it. -/
def ofCons (stmt : Stmt) : List Stmt → Block
  | [] => .one stmt
  | next :: rest => .more stmt (ofCons next rest)

/-- The block of some statements; there is none without a statement. -/
def ofList? : List Stmt → Option Block
  | [] => none
  | stmt :: rest => some (ofCons stmt rest)

@[simp] theorem toList_ofCons (stmt : Stmt) (rest : List Stmt) :
    (ofCons stmt rest).toList = stmt :: rest := by
  induction rest generalizing stmt with
  | nil => rfl
  | cons next rest ih => simp [ofCons, toList, ih]

end Block

end ListScript
