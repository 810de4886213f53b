import ListScript.Token.Kind
import ListScript.Tree.Basic

/-!
# The rules of the grammar

An expression begins with a token that opens one and goes on as long as an operator binds tightly
enough.

* `Power` : how tightly an operator binds, the loosest first;
* `Opening`, `Continuation`, `StmtForm` : what a token may begin or go on with;
* `Rules` : which kinds of tokens do, and how tightly those bind that go on;
* `Rules.standard` : the rules of the language; `Rules.power` : how tightly a kind binds.
-/

namespace ListScript

/-- How tightly an operator binds. `lowest` is what a whole expression asks for. -/
inductive Power where
  | lowest
  | cons
  | logical
  | relational
  | additive
  | multiplicative
  | unary
  deriving DecidableEq, Repr, Inhabited

namespace Power

/-- The place of a power in the order, from zero. -/
def rank : Power → Nat
  | .lowest => 0
  | .cons => 1
  | .logical => 2
  | .relational => 3
  | .additive => 4
  | .multiplicative => 5
  | .unary => 6

/-- A power is less than one that binds more tightly. -/
instance : LT Power := ⟨fun a b => a.rank < b.rank⟩

instance (a b : Power) : Decidable (a < b) := inferInstanceAs (Decidable (a.rank < b.rank))

/-- The name of a power. -/
def name : Power → String
  | .lowest => "Default"
  | .cons => "Prefix"
  | .logical => "Logical"
  | .relational => "Relational"
  | .additive => "Additive"
  | .multiplicative => "Multiplicative"
  | .unary => "Unary"

/-- Every power. -/
def all : List Power :=
  [.lowest, .cons, .logical, .relational, .additive, .multiplicative, .unary]

/-- The power with the given name. -/
def ofName? (name : String) : Option Power :=
  all.find? fun power => power.name == name

end Power

/-- What an expression may begin with. -/
inductive Opening where
  /-- A literal or a name. -/
  | atom
  /-- An operator with one operand. -/
  | unary
  /-- An expression in parentheses. -/
  | group
  /-- A list in brackets. -/
  | list
  deriving DecidableEq, Repr, Inhabited

/-- What an expression may go on with. -/
inductive Continuation where
  /-- An operator that groups to the left. -/
  | binary
  /-- The operator that puts an element in front of a list, which groups to the right. -/
  | cons
  deriving DecidableEq, Repr, Inhabited

/-- The forms of statements. -/
inductive StmtForm where
  | declare
  | assign
  | print
  | forEach
  deriving DecidableEq, Repr, Inhabited

/-- The operator that a kind of token stands for between two operands of a `Continuation.binary`. -/
def Kind.binaryOp? : Kind → Option BinaryOp
  | .plus => some .add
  | .times => some .multiply
  | .and => some .and
  | .equal => some .equal
  | _ => none

/-- The operator that a kind of token stands for before an operand. -/
def Kind.unaryOp? : Kind → Option UnaryOp
  | .minus => some .negate
  | .not => some .not
  | _ => none

/-- What each kind of token begins or goes on with. -/
structure Rules where
  opening : Kind → Option Opening
  continuation : Kind → Option (Power × Continuation)
  form : Kind → Option StmtForm

namespace Rules

/-- What begins an expression of the language. -/
def standardOpening : Kind → Option Opening
  | .numeral | .boolean | .identifier => some .atom
  | .minus | .not => some .unary
  | .openParen => some .group
  | .openBracket => some .list
  | _ => none

/-- What an expression of the language goes on with. -/
def standardContinuation : Kind → Option (Power × Continuation)
  | .cons => some (.cons, .cons)
  | .and => some (.logical, .binary)
  | .equal => some (.relational, .binary)
  | .plus => some (.additive, .binary)
  | .times => some (.multiplicative, .binary)
  | _ => none

/-- What begins a statement of the language. -/
def standardForm : Kind → Option StmtForm
  | .varWord => some .declare
  | .identifier => some .assign
  | .printWord => some .print
  | .forWord => some .forEach
  | _ => none

/-- The rules of the language. -/
def standard : Rules := ⟨standardOpening, standardContinuation, standardForm⟩

/-- How tightly a kind of token binds; one that no expression goes on with does not bind. -/
def power (rules : Rules) (kind : Kind) : Power :=
  match rules.continuation kind with
  | some (power, _) => power
  | none => .lowest

/-- The rules with `kind` beginning an expression. -/
def withOpening (rules : Rules) (kind : Kind) (opening : Opening) : Rules :=
  { rules with opening := fun k => if k = kind then some opening else rules.opening k }

/-- The rules with `kind` going on with an expression. -/
def withContinuation (rules : Rules) (kind : Kind) (power : Power) (continuation : Continuation) :
    Rules :=
  { rules with
    continuation := fun k => if k = kind then some (power, continuation) else rules.continuation k }

/-- The rules with `kind` beginning a statement. -/
def withForm (rules : Rules) (kind : Kind) (form : StmtForm) : Rules :=
  { rules with form := fun k => if k = kind then some form else rules.form k }

end Rules

end ListScript
