import ListScript.Proofs.ParserSoundness
import ListScript.Proofs.Spelling

/-!
# Programs as text

* `Style` : whether every operation stands in parentheses, or only those that grouping needs them for;
* `Expr.source`, `Exprs.source`, `Stmt.source`, `Block.source` : a tree as program text;
* `Expr.isPlain`, `Stmt.isPlain` : the trees that can be written, whose literals are not negative
  and whose names are words that are not reserved;
* `Expr.unplaced`, `Stmt.unplaced` : a tree but for the places of its names;
* `Expr.row`, `Exprs.row`, `Stmt.row`, `Block.row` : the rows of tokens that the grammar derives for
  a tree;
* `Expr.not_derived_of_wraps` : no parentheses of the minimal style can be left out.
-/

namespace ListScript

/-! ## Operators -/

/-- Where the operations with two operands are written in parentheses. -/
inductive Style where
  /-- Everywhere. -/
  | full
  /-- Where they would be grouped in another way without. -/
  | minimal
  deriving DecidableEq, Repr

namespace UnaryOp

/-- The symbol of an operator. -/
def symbol : UnaryOp → String
  | .negate => "-"
  | .not => "!"

/-- The kind of the token of an operator. -/
def kind : UnaryOp → Kind
  | .negate => .minus
  | .not => .not

theorem mem_symbols (op : UnaryOp) : (op.symbol, op.kind) ∈ Lexicon.standardSymbols := by
  cases op <;> decide

end UnaryOp

namespace BinaryOp

/-- The symbol of an operator. -/
def symbol : BinaryOp → String
  | .add => "+"
  | .multiply => "*"
  | .and => "&&"
  | .equal => "=="
  | .cons => "::"

/-- The kind of the token of an operator. -/
def kind : BinaryOp → Kind
  | .add => .plus
  | .multiply => .times
  | .and => .and
  | .equal => .equal
  | .cons => .cons

/-- The level of the operations of an operator. -/
def level : BinaryOp → Level
  | .add => .sum
  | .multiply => .product
  | .and => .conjunction
  | .equal => .comparison
  | .cons => .whole

/-- The level of the left operand. Only `::` does not group to the left. -/
def leftLevel : BinaryOp → Level
  | .cons => .conjunction
  | op => op.level

/-- The level of the right operand. Only `::` groups to the right. -/
def rightLevel : BinaryOp → Level
  | .cons => .whole
  | op => op.level.tighter

theorem mem_symbols (op : BinaryOp) : (op.symbol, op.kind) ∈ Lexicon.standardSymbols := by
  cases op <;> decide

end BinaryOp

/-- Whether an operation is written in parentheses where a phrase of a level is asked for. -/
def Style.wraps (style : Style) (op : BinaryOp) (l : Level) : Bool :=
  match style with
  | .full => true
  | .minimal => op.level.rank < l.rank

/-! ## Program text -/

mutual

/-- An expression as text, where a phrase of a level is asked for. -/
def Expr.source (style : Style) (l : Level) : Expr → String
  | .unary op operand => op.symbol ++ operand.source style .operand
  | .binary op left right =>
    let text := left.source style op.leftLevel ++ " " ++ op.symbol ++ " " ++
      right.source style op.rightLevel
    if style.wraps op l then "(" ++ text ++ ")" else text
  | .int value => toString value.toInt
  | .bool value => toString value
  | .list items => "[" ++ items.source style ++ "]"
  | .var ident => ident.name

/-- Expressions as text, between commas. -/
def Exprs.source (style : Style) : Exprs → String
  | .one item => item.source style .whole
  | .more item rest => item.source style .whole ++ ", " ++ rest.source style

end

mutual

/-- A statement as text. -/
def Stmt.source (style : Style) : Stmt → String
  | .declare ident value => "var " ++ ident.name ++ " = " ++ value.source style .whole
  | .assign ident value => ident.name ++ " = " ++ value.source style .whole
  | .print value => "print " ++ value.source style .whole
  | .forEach ident items body =>
    "for " ++ ident.name ++ " : " ++ items.source style .whole ++ " \x7b" ++ body.source style ++
      "\x7d"

/-- Statements as text, between semicolons. -/
def Block.source (style : Style) : Block → String
  | .one stmt => stmt.source style
  | .more stmt rest => stmt.source style ++ ";" ++ rest.source style

end

/-! ## Trees that can be written -/

/-- A word that is not reserved. -/
def Ident.isPlain (ident : Ident) : Bool :=
  isWord ident.name.toList && (Lexicon.standard.keyword? ident.name).isNone

mutual

/-- An expression in which no literal is negative and every name is a word that is not reserved. -/
def Expr.isPlain : Expr → Bool
  | .unary _ operand => operand.isPlain
  | .binary _ left right => left.isPlain && right.isPlain
  | .int value => 0 ≤ value.toInt
  | .bool _ => true
  | .list items => items.isPlain
  | .var ident => ident.isPlain

/-- So is every one of some expressions. -/
def Exprs.isPlain : Exprs → Bool
  | .one item => item.isPlain
  | .more item rest => item.isPlain && rest.isPlain

end

mutual

/-- A statement in which no literal is negative and every name is a word that is not reserved. -/
def Stmt.isPlain : Stmt → Bool
  | .declare ident value | .assign ident value => ident.isPlain && value.isPlain
  | .print value => value.isPlain
  | .forEach ident items body => ident.isPlain && items.isPlain && body.isPlain

/-- So is every one of some statements. -/
def Block.isPlain : Block → Bool
  | .one stmt => stmt.isPlain
  | .more stmt rest => stmt.isPlain && rest.isPlain

end

/-! ## Trees without places -/

/-- A name that stands nowhere. -/
def Ident.unplaced (ident : Ident) : Ident := ⟨ident.name, Position.origin⟩

mutual

/-- An expression whose names stand nowhere. -/
def Expr.unplaced : Expr → Expr
  | .unary op operand => .unary op operand.unplaced
  | .binary op left right => .binary op left.unplaced right.unplaced
  | .int value => .int value
  | .bool value => .bool value
  | .list items => .list items.unplaced
  | .var ident => .var ident.unplaced

/-- Expressions whose names stand nowhere. -/
def Exprs.unplaced : Exprs → Exprs
  | .one item => .one item.unplaced
  | .more item rest => .more item.unplaced rest.unplaced

end

mutual

/-- A statement whose names stand nowhere. -/
def Stmt.unplaced : Stmt → Stmt
  | .declare ident value => .declare ident.unplaced value.unplaced
  | .assign ident value => .assign ident.unplaced value.unplaced
  | .print value => .print value.unplaced
  | .forEach ident items body => .forEach ident.unplaced items.unplaced body.unplaced

/-- Statements whose names stand nowhere. -/
def Block.unplaced : Block → Block
  | .one stmt => .one stmt.unplaced
  | .more stmt rest => .more stmt.unplaced rest.unplaced

end

/-! ## Rows of tokens -/

/-- The rows of tokens that the grammar derives for an expression at a level. -/
def Expr.row (l : Level) (e : Expr) : Language Token :=
  {tokens | ∃ d : Phrase l, d.tree.unplaced = e.unplaced ∧ d.tokens = tokens}

/-- The rows of tokens that the grammar derives for expressions between commas. -/
def Exprs.row (es : Exprs) : Language Token :=
  {tokens | ∃ d : Items, d.tree.unplaced = es.unplaced ∧ d.tokens = tokens}

/-- The rows of tokens that the grammar derives for a statement. -/
def Stmt.row (s : Stmt) : Language Token :=
  {tokens | ∃ d : StmtPhrase, d.tree.unplaced = s.unplaced ∧ d.tokens = tokens}

/-- The rows of tokens that the grammar derives for statements between semicolons. -/
def Block.row (b : Block) : Language Token :=
  {tokens | ∃ d : SeqPhrase, d.tree.unplaced = b.unplaced ∧ d.tokens = tokens}

/-- The rows of the single token of a name. -/
def Ident.row (ident : Ident) : Language Token :=
  Token.row fun t => t.kind = .identifier ∧ t.text = ident.name

/-! ## Rules of the grammar -/

theorem Ident.unplaced_eq {ident ident' : Ident} (h : ident.name = ident'.name) :
    ident.unplaced = ident'.unplaced := by
  rw [unplaced, unplaced, h]

namespace Expr

variable {l l' : Level}

/-- What is derived at a level is derived at every looser one. -/
theorem row_le (e : Expr) (h : l'.rank ≤ l.rank) : e.row l ≤ e.row l' := by
  rintro _ ⟨d, hd, rfl⟩
  obtain ⟨d', htokens, htree⟩ := d.exists_loosened l' h
  exact ⟨d', by rw [htree, hd], htokens⟩

theorem unary_row_le (op : UnaryOp) (e : Expr) :
    op.kind.row * e.row .operand ≤ (unary op e).row .operand := by
  rintro _ ⟨_, ⟨t, ht, rfl⟩, _, ⟨d, hd, rfl⟩, rfl⟩
  have htree : unary op d.tree.unplaced = (unary op e).unplaced := by rw [unplaced, hd]
  cases op with
  | negate => exact ⟨.negate ⟨t, ht⟩ d, htree, rfl⟩
  | not => exact ⟨.not ⟨t, ht⟩ d, htree, rfl⟩

/-- The rows of an operation are derived at its level, and not as something tighter. -/
theorem exists_operation (op : BinaryOp) {left right : Expr} {tokens : List Token}
    (h : tokens ∈ left.row op.leftLevel * (op.kind.row * right.row op.rightLevel)) :
    ∃ d : Phrase op.level, d.tree.unplaced = (binary op left right).unplaced ∧
      d.tokens = tokens ∧ ∀ hl e, d ≠ .tighter hl e := by
  obtain ⟨_, ⟨d, hd, rfl⟩, _, ⟨_, ⟨t, ht, rfl⟩, _, ⟨d', hd', rfl⟩, rfl⟩, rfl⟩ := h
  have htree : binary op d.tree.unplaced d'.tree.unplaced = (binary op left right).unplaced := by
    rw [unplaced, hd, hd']
  cases op with
  | cons => exact ⟨.cons d ⟨t, ht⟩ d', htree, rfl, nofun⟩
  | add => exact ⟨.binary (l := .sum) rfl d ⟨t, ht⟩ d', htree, rfl, nofun⟩
  | multiply => exact ⟨.binary (l := .product) rfl d ⟨t, ht⟩ d', htree, rfl, nofun⟩
  | and => exact ⟨.binary (l := .conjunction) rfl d ⟨t, ht⟩ d', htree, rfl, nofun⟩
  | equal => exact ⟨.binary (l := .comparison) rfl d ⟨t, ht⟩ d', htree, rfl, nofun⟩

theorem binary_row_le (op : BinaryOp) (left right : Expr) :
    left.row op.leftLevel * (op.kind.row * right.row op.rightLevel) ≤
      (binary op left right).row op.level := by
  intro tokens h
  obtain ⟨d, htree, htokens, -⟩ := exists_operation op h
  exact ⟨d, htree, htokens⟩

/-- Without the parentheses that the minimal style writes, an operation is no phrase of the level
that is asked for. -/
theorem not_derived_of_wraps {op : BinaryOp} (h : Style.minimal.wraps op l = true)
    {left right : Expr} (d : Phrase l) :
    d.tokens ∉ left.row op.leftLevel * (op.kind.row * right.row op.rightLevel) := by
  intro hmem
  obtain ⟨d', -, htokens, hd'⟩ := exists_operation op hmem
  have hlt : op.level.rank < l.rank := of_decide_eq_true h
  have hne : op.level ≠ l := by
    rintro rfl
    exact Nat.lt_irrefl _ hlt
  obtain ⟨hoperand, hle⟩ := Level.tighter_rank_le hne (Nat.le_of_lt hlt)
  obtain ⟨e, he, -⟩ := d.exists_loosened op.level.tighter hle
  have hsame : d'.tokens ++ [] = (Phrase.tighter hoperand e).tokens ++ [] := by
    rw [htokens, ← he, Phrase.tokens]
  exact hd' hoperand e (Phrase.eq_of_append hsame trivial trivial).1

theorem group_row_le (e : Expr) :
    Kind.openParen.row * (e.row .whole * Kind.closeParen.row) ≤ e.row .operand := by
  rintro _ ⟨_, ⟨t, ht, rfl⟩, _, ⟨_, ⟨d, hd, rfl⟩, _, ⟨t', ht', rfl⟩, rfl⟩, rfl⟩
  exact ⟨.group ⟨t, ht⟩ d ⟨t', ht'⟩, hd, rfl⟩

theorem list_row_le (items : Exprs) :
    Kind.openBracket.row * (items.row * Kind.closeBracket.row) ≤ (list items).row .operand := by
  rintro _ ⟨_, ⟨t, ht, rfl⟩, _, ⟨_, ⟨d, hd, rfl⟩, _, ⟨t', ht', rfl⟩, rfl⟩, rfl⟩
  exact ⟨.list ⟨t, ht⟩ d ⟨t', ht'⟩, congrArg list hd, rfl⟩

theorem int_row_le (value : Int64) :
    Token.row (fun t => t.kind = .numeral ∧ t.literal = some (.int value)) ≤
      (int value).row .operand := by
  rintro _ ⟨t, ⟨ht, hliteral⟩, rfl⟩
  exact ⟨.number ⟨t, ht⟩ value hliteral, rfl, rfl⟩

theorem bool_row_le (value : Bool) :
    Token.row (fun t => t.kind = .boolean ∧ t.literal = some (.bool value)) ≤
      (bool value).row .operand := by
  rintro _ ⟨t, ⟨ht, hliteral⟩, rfl⟩
  exact ⟨.truth ⟨t, ht⟩ value hliteral, rfl, rfl⟩

theorem var_row_le (ident : Ident) : ident.row ≤ (var ident).row .operand := by
  rintro _ ⟨t, ⟨ht, htext⟩, rfl⟩
  exact ⟨.name ⟨t, ht⟩, congrArg var (Ident.unplaced_eq htext), rfl⟩

end Expr

namespace Exprs

theorem one_row_le (item : Expr) : item.row .whole ≤ (one item).row := by
  rintro _ ⟨d, hd, rfl⟩
  exact ⟨.one d, congrArg one hd, rfl⟩

theorem more_row_le (item : Expr) (rest : Exprs) :
    item.row .whole * (Kind.comma.row * rest.row) ≤ (more item rest).row := by
  rintro _ ⟨_, ⟨d, hd, rfl⟩, _, ⟨_, ⟨t, ht, rfl⟩, _, ⟨ds, hds, rfl⟩, rfl⟩, rfl⟩
  exact ⟨.more d ⟨t, ht⟩ ds, congrArg₂ more hd hds, rfl⟩

end Exprs

namespace Stmt

theorem declare_row_le (ident : Ident) (value : Expr) :
    Kind.varWord.row * (ident.row * (Kind.assign.row * value.row .whole)) ≤
      (declare ident value).row := by
  rintro _ ⟨_, ⟨t, ht, rfl⟩, _, ⟨_, ⟨name, ⟨hname, htext⟩, rfl⟩, _,
    ⟨_, ⟨t', ht', rfl⟩, _, ⟨d, hd, rfl⟩, rfl⟩, rfl⟩, rfl⟩
  exact ⟨.declare ⟨t, ht⟩ ⟨name, hname⟩ ⟨t', ht'⟩ d,
    congrArg₂ declare (Ident.unplaced_eq htext) hd, rfl⟩

theorem assign_row_le (ident : Ident) (value : Expr) :
    ident.row * (Kind.assign.row * value.row .whole) ≤ (assign ident value).row := by
  rintro _ ⟨_, ⟨name, ⟨hname, htext⟩, rfl⟩, _, ⟨_, ⟨t, ht, rfl⟩, _, ⟨d, hd, rfl⟩, rfl⟩, rfl⟩
  exact ⟨.assign ⟨name, hname⟩ ⟨t, ht⟩ d, congrArg₂ assign (Ident.unplaced_eq htext) hd, rfl⟩

theorem print_row_le (value : Expr) :
    Kind.printWord.row * value.row .whole ≤ (print value).row := by
  rintro _ ⟨_, ⟨t, ht, rfl⟩, _, ⟨d, hd, rfl⟩, rfl⟩
  exact ⟨.print ⟨t, ht⟩ d, congrArg print hd, rfl⟩

theorem forEach_row_le (ident : Ident) (items : Expr) (body : Block) :
    Kind.forWord.row * (ident.row * (Kind.colon.row * (items.row .whole *
      (Kind.openBrace.row * (body.row * Kind.closeBrace.row))))) ≤
      (forEach ident items body).row := by
  rintro _ ⟨_, ⟨t, ht, rfl⟩, _, ⟨_, ⟨name, ⟨hname, htext⟩, rfl⟩, _, ⟨_, ⟨colon, hcolon, rfl⟩, _,
    ⟨_, ⟨d, hd, rfl⟩, _, ⟨_, ⟨opening, hopening, rfl⟩, _, ⟨_, ⟨ds, hds, rfl⟩, _,
      ⟨closing, hclosing, rfl⟩, rfl⟩, rfl⟩, rfl⟩, rfl⟩, rfl⟩, rfl⟩
  have htree : forEach (Terminal.ident ⟨name, hname⟩).unplaced d.tree.unplaced ds.tree.unplaced =
      (forEach ident items body).unplaced := by
    rw [unplaced, hd, hds, Ident.unplaced_eq htext]
  exact ⟨.forEach ⟨t, ht⟩ ⟨name, hname⟩ ⟨colon, hcolon⟩ d ⟨opening, hopening⟩ ds
    ⟨closing, hclosing⟩, htree, rfl⟩

end Stmt

namespace Block

theorem one_row_le (stmt : Stmt) : stmt.row ≤ (one stmt).row := by
  rintro _ ⟨d, hd, rfl⟩
  exact ⟨.one d, congrArg one hd, rfl⟩

theorem more_row_le (stmt : Stmt) (rest : Block) :
    stmt.row * (Kind.semicolon.row * rest.row) ≤ (more stmt rest).row := by
  rintro _ ⟨_, ⟨d, hd, rfl⟩, _, ⟨_, ⟨t, ht, rfl⟩, _, ⟨ds, hds, rfl⟩, rfl⟩, rfl⟩
  exact ⟨.more d ⟨t, ht⟩ ds, congrArg₂ more hd hds, rfl⟩

end Block

end ListScript
