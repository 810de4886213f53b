import ListScript.Scopes
import ListScript.Sink
import ListScript.Tree.Basic
import ListScript.Value

/-!
# Evaluating programs

* `EvalError` : why a program stops before its end, and what it says of itself;
* `Expr.eval` : the value of an expression where variables have the values of some scopes;
* `Machine` : the values of variables and the writer that takes what is printed;
* `Stmt.run`, `Block.run` : statements change the machine. A failed run leaves the machine as it
  was when it failed, with the scopes ended that had begun inside;
* `Block.execute` : runs a whole program and flushes its output.

Operands are evaluated from left to right, and an operand must have the shape its operator needs
before the next one is evaluated. Integers wrap around.
-/

namespace ListScript

/-- Why a program stops before its end. -/
inductive EvalError where
  | value (error : ValueError)
  | undeclared (name : String) (position : Position)
  | alreadyDeclared (name : String) (position : Position)
  /-- The output was not taken, because of `cause`. -/
  | output (cause : String)
  deriving DecidableEq, Repr, Inhabited

namespace EvalError

/-- The message of the error itself. -/
def message : EvalError → String
  | .value error => error.message
  | .undeclared name position => "undeclared variable " ++ Text.quote name ++ s!" at {position}"
  | .alreadyDeclared name position =>
    "variable " ++ Text.quote name ++ s!" already declared at {position}"
  | .output _ => "failed to write program output"

/-- The messages of what caused the error. -/
def causes : EvalError → List String
  | .output cause => [cause]
  | _ => []

/-- The place of the error. -/
def position? : EvalError → Option Position
  | .undeclared _ position => some position
  | .alreadyDeclared _ position => some position
  | _ => none

end EvalError

/-! ## Expressions -/

/-- The error for a name that is not declared. -/
def Ident.unbound (ident : Ident) : EvalError := .undeclared ident.name ident.position

/-- What a value of the expected shape holds. -/
def narrow {α : Type} : Except ValueError α → Except EvalError α
  | .ok a => .ok a
  | .error e => .error (.value e)

mutual

/-- The value of an expression. -/
def Expr.eval (scopes : Scopes Value) : Expr → Except EvalError Value
  | .unary .negate operand => do
    let n ← narrow (← operand.eval scopes).expectInt
    return .int (-n)
  | .unary .not operand => do
    let b ← narrow (← operand.eval scopes).expectBool
    return .bool !b
  | .binary .add left right => do
    let m ← narrow (← left.eval scopes).expectInt
    let n ← narrow (← right.eval scopes).expectInt
    return .int (m + n)
  | .binary .multiply left right => do
    let m ← narrow (← left.eval scopes).expectInt
    let n ← narrow (← right.eval scopes).expectInt
    return .int (m * n)
  | .binary .and left right => do
    if ← narrow (← left.eval scopes).expectBool then
      return .bool (← narrow (← right.eval scopes).expectBool)
    else
      return .bool false
  | .binary .equal left right => do
    let a ← left.eval scopes
    let b ← right.eval scopes
    return .bool (a = b)
  | .binary .cons left right => do
    let head ← left.eval scopes
    let tail ← narrow (← right.eval scopes).expectList
    return .list (head :: tail)
  | .int value => .ok (.int value)
  | .bool value => .ok (.bool value)
  | .list items => do return .list (← items.eval scopes)
  | .var ident =>
    match scopes.lookup? ident.name with
    | some value => .ok value
    | none => .error ident.unbound

/-- The values of some expressions. -/
def Exprs.eval (scopes : Scopes Value) : Exprs → Except EvalError (List Value)
  | .one item => do return [← item.eval scopes]
  | .more item rest => do
    let head ← item.eval scopes
    let tail ← rest.eval scopes
    return head :: tail

end

/-! ## Statements -/

/-- The values of variables and the writer that takes what is printed. -/
structure Machine (σ : Type := Sink) where
  scopes : Scopes Value
  sink : σ
  deriving Repr

/-- A machine with one empty scope. -/
def Machine.ofSink {σ : Type} (sink : σ) : Machine σ := ⟨Scopes.empty, sink⟩

/-- Steps of a machine. -/
abbrev Running (σ : Type) := EStateM EvalError (Machine σ)

variable {σ : Type}

namespace Running

/-- The value of an expression where the step is taken. -/
def eval (e : Expr) : Running σ Value := fun m =>
  match e.eval m.scopes with
  | .ok value => .ok value m
  | .error e => .error e m

/-- An answer that does not depend on the machine. -/
def ofExcept {α : Type} : Except EvalError α → Running σ α
  | .ok a => pure a
  | .error e => throw e

/-- A step of the writer. -/
def output (step : EStateM String σ Unit) : Running σ Unit := fun m =>
  match step m.sink with
  | .ok () sink => .ok () { m with sink }
  | .error cause sink => .error (.output cause) { m with sink }

/-- Declares a variable in the innermost scope. -/
def declare (ident : Ident) (value : Value) : Running σ Unit := fun m =>
  match m.scopes.declare? ident.name value with
  | some scopes => .ok () { m with scopes }
  | none => .error (.alreadyDeclared ident.name ident.position) m

/-- Gives a declared variable another value. -/
def assign (ident : Ident) (value : Value) : Running σ Unit := fun m =>
  match m.scopes.update? ident.name value with
  | some scopes => .ok () { m with scopes }
  | none => .error ident.unbound m

/-- A step inside a scope of its own that binds one name. The scope ends with the step, also when
it fails. -/
def inScope (name : String) (value : Value) (body : Running σ Unit) : Running σ Unit := fun m =>
  match body { m with scopes := m.scopes.enterWith name value } with
  | .ok () after => .ok () { after with scopes := after.scopes.exit }
  | .error e after => .error e { after with scopes := after.scopes.exit }

/-- A step once for every value of a list. -/
def forEach (step : Value → Running σ Unit) : List Value → Running σ Unit
  | [] => pure ()
  | value :: rest => do
    step value
    forEach step rest

end Running

variable [Writer σ]

mutual

/-- Runs a statement. -/
def Stmt.run : Stmt → Running σ Unit
  | .declare ident value => do Running.declare ident (← Running.eval value)
  | .assign ident value => do Running.assign ident (← Running.eval value)
  | .print value => do
    let value ← Running.eval value
    Running.output (Writer.write (value.text ++ "\n"))
  | .forEach ident items body => do
    let list ← Running.eval items
    let values ← Running.ofExcept (narrow list.expectList)
    Running.forEach (fun value => Running.inScope ident.name value body.run) values

/-- Runs statements one after the other. -/
def Block.run : Block → Running σ Unit
  | .one stmt => stmt.run
  | .more stmt rest => do
    stmt.run
    rest.run

end

/-- Runs a whole program and flushes its output if it succeeds. -/
def Block.execute (program : Block) : Running σ Unit := do
  program.run
  Running.output Writer.flush

end ListScript
