import ListScript.Tree.Basic

/-!
# Trees as text

The outline of a tree shows its shape: an operator stands in parentheses before its operands, and a
name carries its place.

* `Expr.outline`, `Exprs.outline` : expressions;
* `Stmt.outline`, `Block.outlines` : statements, and the outlines of a block's statements.
-/

namespace ListScript

/-- A name with its place. -/
def Ident.outline (ident : Ident) : String := ident.name ++ "@" ++ toString ident.position

/-- How an operator with one operand is written in an outline. -/
def UnaryOp.outline : UnaryOp → String
  | .negate => "neg"
  | .not => "not"

/-- How an operator with two operands is written in an outline. -/
def BinaryOp.outline : BinaryOp → String
  | .add => "+"
  | .multiply => "*"
  | .and => "&&"
  | .equal => "=="
  | .cons => "::"

mutual

/-- The outline of an expression. -/
def Expr.outline : Expr → String
  | .unary op operand => "(" ++ op.outline ++ " " ++ operand.outline ++ ")"
  | .binary op left right =>
    "(" ++ op.outline ++ " " ++ left.outline ++ " " ++ right.outline ++ ")"
  | .int value => toString value.toInt
  | .bool value => toString value
  | .list items => "[" ++ items.outline ++ "]"
  | .var ident => ident.outline

/-- The outlines of expressions, separated by commas. -/
def Exprs.outline : Exprs → String
  | .one item => item.outline
  | .more item rest => item.outline ++ ", " ++ rest.outline

end

mutual

/-- The outline of a statement. -/
def Stmt.outline : Stmt → String
  | .declare ident value => "(var " ++ ident.outline ++ " " ++ value.outline ++ ")"
  | .assign ident value => "(= " ++ ident.outline ++ " " ++ value.outline ++ ")"
  | .print value => "(print " ++ value.outline ++ ")"
  | .forEach ident items body =>
    "(for " ++ ident.outline ++ " " ++ items.outline ++ " \x7b" ++ "; ".intercalate body.outlines ++
      "\x7d)"

/-- The outlines of a block's statements. -/
def Block.outlines : Block → List String
  | .one stmt => [stmt.outline]
  | .more stmt rest => stmt.outline :: rest.outlines

end

end ListScript
