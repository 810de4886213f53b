import ListScript.Evaluation
import ListScript.Proofs.Ends
import ListScript.Proofs.ScopeRelation
import ListScript.Typing

/-!
# What a program does to the scopes

A relation between the scopes before a step and those after it holds for runs and for checks, however
they end, if the operations that they consist of respect it.

* `Expr.names`, `Stmt.names`, `Block.names` : the names that occur;
* `Leaves R` : `R` relates the scopes before a step to those after it (`Leaves.bind`);
* `Scopes.Frame N R` : what the steps of statements with names in `N` respect, if they give no
  variable another value;
* `Block.leaves_run`, `Block.leaves_check` : whole runs and checks respect it;
* `Stmt.leaves_run_forEach`, `Stmt.leaves_check_forEach` : loops respect more than their bodies do,
  since they end the scopes that they begin;
* `Scopes.frame_agree`, `Keeps`, `Block.keeps_run`, `Block.keeps_check` : names that do not occur stay
  bound as they were.
-/

namespace ListScript

/-! ## The names of a program -/

mutual

/-- The names that occur in an expression. -/
def Expr.names : Expr → List String
  | .unary _ operand => operand.names
  | .binary _ left right => left.names ++ right.names
  | .int _ | .bool _ => []
  | .list items => items.names
  | .var ident => [ident.name]

/-- The names that occur in some expressions. -/
def Exprs.names : Exprs → List String
  | .one item => item.names
  | .more item rest => item.names ++ rest.names

end

mutual

/-- The names that occur in a statement: those that are used, assigned, declared, or bound by a
loop. -/
def Stmt.names : Stmt → List String
  | .declare ident value | .assign ident value => ident.name :: value.names
  | .print value => value.names
  | .forEach ident items body => ident.name :: (items.names ++ body.names)

/-- The names that occur in a block. -/
def Block.names : Block → List String
  | .one stmt => stmt.names
  | .more stmt rest => stmt.names ++ rest.names

end

variable {N : Set String} {σ : Type}

/-! ## What is left as it is -/

/-- However the step ends, `R` relates the scopes before it to those after it. -/
abbrev Leaves {ε ρ α β : Type} (R : Scopes β → Scopes β → Prop) (scopes : ρ → Scopes β) (s : ρ) :
    EStateM.Result ε ρ α → Prop :=
  Ends (fun _ u => R (scopes s) (scopes u)) fun _ u => R (scopes s) (scopes u)

/-- However the step ends, its scopes bind names outside `N` as they did. -/
abbrev Keeps {ε ρ α β : Type} (N : Set String) (scopes : ρ → Scopes β) (s : ρ) :
    EStateM.Result ε ρ α → Prop :=
  Leaves (Scopes.Agree Nᶜ Eq) scopes s

/-- What the steps of statements with names in `N` respect if they give no variable another value: to
do nothing, to do one thing after another, to declare a name, and to end a scope that has begun with
a name. -/
structure Scopes.Frame {β : Type} (N : Set String) (R : Scopes β → Scopes β → Prop) : Prop where
  refl (s : Scopes β) : R s s
  trans (s t u : Scopes β) : R s t → R t u → R s u
  declare {s t : Scopes β} {name : String} {b : β} :
    name ∈ N → s.declare? name b = some t → R s t
  exit {s t : Scopes β} {name : String} {b : β} : R (s.enterWith name b) t → R s t.exit

/-- Scopes that bind all names outside `N` to the same. -/
theorem Scopes.frame_agree {β : Type} : Scopes.Frame N (Scopes.Agree (α := β) Nᶜ Eq) where
  refl := .refl
  trans _ _ _ := .trans
  declare hn h := Scopes.agree_of_declare? h fun hout => hout hn
  exit h := h.exit

theorem Leaves.bind {ε ρ α β γ : Type} {R : Scopes γ → Scopes γ → Prop} {scopes : ρ → Scopes γ}
    {s : ρ} {x : EStateM ε ρ α} {f : α → EStateM ε ρ β}
    (htrans : ∀ s t u, R s t → R t u → R s u) (hx : Leaves R scopes s (x s))
    (hf : ∀ a u, Leaves R scopes u (f a u)) : Leaves R scopes s ((x >>= f) s) := by
  apply Ends.bind hx
  intro a u hu
  exact (hf a u).mono (fun _ _ h => htrans _ _ _ hu h) fun _ _ h => htrans _ _ _ hu h

namespace Running

variable {m : Machine σ} {R Q : Scopes Value → Scopes Value → Prop}

theorem leaves_eval (hrefl : ∀ s, R s s) (e : Expr) : Leaves R Machine.scopes m (eval e m) := by
  unfold eval
  split
  · exact .ok (hrefl _)
  · exact .error (hrefl _)

theorem leaves_ofExcept {α : Type} (hrefl : ∀ s, R s s) (x : Except EvalError α) :
    Leaves R Machine.scopes m (ofExcept x m) := by
  cases x with
  | ok a => exact .ok (hrefl _)
  | error err => exact .error (hrefl _)

theorem leaves_output (hrefl : ∀ s, R s s) (step : EStateM String σ Unit) :
    Leaves R Machine.scopes m (output step m) := by
  unfold output
  split
  · exact .ok (hrefl _)
  · exact .error (hrefl _)

theorem leaves_declare (hR : Scopes.Frame N R) {ident : Ident} (hn : ident.name ∈ N) (v : Value) :
    Leaves R Machine.scopes m (declare ident v m) := by
  unfold declare
  split
  · next h => exact .ok (hR.declare hn h)
  · exact .error (hR.refl _)

theorem leaves_assign {ident : Ident} {v : Value} (hrefl : ∀ s, R s s)
    (hupdate : ∀ {t}, m.scopes.update? ident.name v = some t → R m.scopes t) :
    Leaves R Machine.scopes m (assign ident v m) := by
  unfold assign
  split
  · next h => exact .ok (hupdate h)
  · exact .error (hrefl _)

/-- The scope that is entered ends with the step. -/
theorem leaves_inScope {body : Running σ Unit} {name : String} {v : Value}
    (hexit : ∀ {t}, R (m.scopes.enterWith name v) t → Q m.scopes t.exit)
    (hbody : ∀ u, Leaves R Machine.scopes u (body u)) :
    Leaves Q Machine.scopes m (inScope name v body m) := by
  have hinner := hbody { m with scopes := m.scopes.enterWith name v }
  unfold inScope
  split
  · next h => exact .ok (hexit (hinner.of_ok h))
  · next h => exact .error (hexit (hinner.of_error h))

theorem leaves_forEach {step : Value → Running σ Unit} (hrefl : ∀ s, R s s)
    (htrans : ∀ s t u, R s t → R t u → R s u) (values : List Value)
    (hstep : ∀ v u, Leaves R Machine.scopes u (step v u)) :
    Leaves R Machine.scopes m (forEach step values m) := by
  induction values generalizing m with
  | nil => exact .ok (hrefl _)
  | cons v rest ih => exact Leaves.bind htrans (hstep v m) fun _ _ => ih

end Running

section

variable [Writer σ] {R Q : Scopes Value → Scopes Value → Prop} {ident : Ident} {e : Expr}
variable {m : Machine σ}

theorem Stmt.leaves_run_assign (hrefl : ∀ s, Q s s) (htrans : ∀ s t u, Q s t → Q t u → Q s u)
    (hupdate : ∀ {s t v}, s.update? ident.name v = some t → Q s t) :
    Leaves Q Machine.scopes m ((Stmt.assign ident e).run m) := by
  apply Leaves.bind htrans (Running.leaves_eval hrefl e)
  intro v u
  exact Running.leaves_assign hrefl hupdate

theorem Stmt.leaves_run_print (hrefl : ∀ s, Q s s) (htrans : ∀ s t u, Q s t → Q t u → Q s u) :
    Leaves Q Machine.scopes m ((Stmt.print e).run m) := by
  apply Leaves.bind htrans (Running.leaves_eval hrefl e)
  intro v u
  exact Running.leaves_output hrefl _

/-- A loop leaves what its rounds leave, each of which ends the scope that it begins. -/
theorem Stmt.leaves_run_forEach {body : Block} (hrefl : ∀ s, Q s s)
    (htrans : ∀ s t u, Q s t → Q t u → Q s u)
    (hexit : ∀ {s t v}, R (s.enterWith ident.name v) t → Q s t.exit)
    (hbody : ∀ u : Machine σ, Leaves R Machine.scopes u (body.run u)) :
    Leaves Q Machine.scopes m ((Stmt.forEach ident e body).run m) := by
  apply Leaves.bind htrans (Running.leaves_eval hrefl e)
  intro list u
  apply Leaves.bind htrans (Running.leaves_ofExcept hrefl _)
  intro values u
  apply Running.leaves_forEach hrefl htrans values
  intro v u
  exact Running.leaves_inScope hexit hbody

mutual

/-- A run of a statement respects what its steps do. -/
theorem Stmt.leaves_run (hR : Scopes.Frame N R)
    (hupdate : ∀ {s t name v}, name ∈ N → s.update? name v = some t → R s t) :
    ∀ {stmt : Stmt} {m : Machine σ}, (∀ name ∈ stmt.names, name ∈ N) →
      Leaves R Machine.scopes m (stmt.run m)
  | .declare ident e, m, hnames => by
    apply Leaves.bind hR.trans (Running.leaves_eval hR.refl e)
    intro v u
    exact Running.leaves_declare hR (List.forall_mem_cons.mp hnames).1 v
  | .assign ident e, m, hnames =>
    Stmt.leaves_run_assign hR.refl hR.trans (hupdate (List.forall_mem_cons.mp hnames).1)
  | .print e, m, hnames => Stmt.leaves_run_print hR.refl hR.trans
  | .forEach ident e body, m, hnames => by
    have hbody := (List.forall_mem_append.mp (List.forall_mem_cons.mp hnames).2).2
    apply Stmt.leaves_run_forEach hR.refl hR.trans hR.exit
    exact fun _ => Block.leaves_run hR hupdate hbody

theorem Block.leaves_run (hR : Scopes.Frame N R)
    (hupdate : ∀ {s t name v}, name ∈ N → s.update? name v = some t → R s t) :
    ∀ {block : Block} {m : Machine σ}, (∀ name ∈ block.names, name ∈ N) →
      Leaves R Machine.scopes m (block.run m)
  | .one stmt, m, hnames => by
    have hstmt : ∀ name ∈ stmt.names, name ∈ N := hnames
    exact Stmt.leaves_run hR hupdate hstmt
  | .more stmt rest, m, hnames => by
    obtain ⟨hstmt, hrest⟩ := List.forall_mem_append.mp hnames
    apply Leaves.bind hR.trans (Stmt.leaves_run hR hupdate hstmt)
    intro _ u
    exact Block.leaves_run hR hupdate hrest

end

/-- A run of a program leaves the names that do not occur in it as they are. -/
theorem Block.keeps_run {block : Block} {m : Machine σ} (hnames : ∀ name ∈ block.names, name ∈ N) :
    Keeps N Machine.scopes m (block.run m) :=
  Block.leaves_run Scopes.frame_agree
    (fun hn h => Scopes.agree_of_update? h fun hout => hout hn) hnames

theorem Block.keeps_execute {program : Block} {m : Machine σ}
    (hnames : ∀ name ∈ program.names, name ∈ N) :
    Keeps N Machine.scopes m (program.execute m) := by
  apply Leaves.bind (fun _ _ _ => .trans) (Block.keeps_run hnames)
  intro _ u
  exact Running.leaves_output .refl _

end

namespace Checking

variable {s : Scopes Ty} {R Q : Scopes Ty → Scopes Ty → Prop}

theorem leaves_infer (hrefl : ∀ s, R s s) (e : Expr) : Leaves R id s (infer e s) := by
  unfold infer
  split
  · exact .ok (hrefl _)
  · exact .error (hrefl _)

theorem leaves_ofExcept {α : Type} (hrefl : ∀ s, R s s) (x : Except TypeError α) :
    Leaves R id s (ofExcept x s) := by
  cases x with
  | ok a => exact .ok (hrefl _)
  | error err => exact .error (hrefl _)

theorem leaves_declare (hR : Scopes.Frame N R) {ident : Ident} (hn : ident.name ∈ N) (T : Ty) :
    Leaves R id s (declare ident T s) := by
  unfold declare
  split
  · next h => exact .ok (hR.declare hn h)
  · exact .error (hR.refl _)

theorem leaves_typeOf (hrefl : ∀ s, R s s) (ident : Ident) : Leaves R id s (typeOf ident s) := by
  unfold typeOf
  split
  · exact .ok (hrefl _)
  · exact .error (hrefl _)

theorem leaves_inScope {body : Checking Unit} {name : String} {T : Ty}
    (hexit : ∀ {t}, R (s.enterWith name T) t → Q s t.exit) (hbody : ∀ u, Leaves R id u (body u)) :
    Leaves Q id s (inScope name T body s) := by
  have hinner := hbody (s.enterWith name T)
  unfold inScope
  split
  · next h => exact .ok (hexit (hinner.of_ok h))
  · next h => exact .error (hexit (hinner.of_error h))

end Checking

section

variable {R Q : Scopes Ty → Scopes Ty → Prop} {s : Scopes Ty} {ident : Ident} {e : Expr}

theorem Stmt.leaves_check_assign (hrefl : ∀ s, Q s s) (htrans : ∀ s t u, Q s t → Q t u → Q s u) :
    Leaves Q id s ((Stmt.assign ident e).check s) := by
  apply Leaves.bind htrans (Checking.leaves_infer hrefl e)
  intro found u
  apply Leaves.bind htrans (Checking.leaves_typeOf hrefl ident)
  intro declared u
  exact Ends.discard (Checking.leaves_ofExcept hrefl _)

/-- A loop leaves what its body leaves, with the scope ended that it begins. -/
theorem Stmt.leaves_check_forEach {body : Block} (hrefl : ∀ s, Q s s)
    (htrans : ∀ s t u, Q s t → Q t u → Q s u)
    (hexit : ∀ {s t T}, R (s.enterWith ident.name T) t → Q s t.exit)
    (hbody : ∀ u, Leaves R id u (body.check u)) :
    Leaves Q id s ((Stmt.forEach ident e body).check s) := by
  apply Leaves.bind htrans (Checking.leaves_infer hrefl e)
  intro list u
  apply Leaves.bind htrans (Checking.leaves_ofExcept hrefl _)
  intro element u
  exact Checking.leaves_inScope hexit hbody

mutual

/-- A check of a statement respects what its steps do. -/
theorem Stmt.leaves_check (hR : Scopes.Frame N R) : ∀ {stmt : Stmt} {s : Scopes Ty},
    (∀ name ∈ stmt.names, name ∈ N) → Leaves R id s (stmt.check s)
  | .declare ident e, s, hnames => by
    apply Leaves.bind hR.trans (Checking.leaves_infer hR.refl e)
    intro T u
    exact Checking.leaves_declare hR (List.forall_mem_cons.mp hnames).1 T
  | .assign ident e, s, hnames => Stmt.leaves_check_assign hR.refl hR.trans
  | .print e, s, hnames => Ends.discard (Checking.leaves_infer hR.refl e)
  | .forEach ident e body, s, hnames => by
    have hbody := (List.forall_mem_append.mp (List.forall_mem_cons.mp hnames).2).2
    apply Stmt.leaves_check_forEach hR.refl hR.trans hR.exit
    exact fun _ => Block.leaves_check hR hbody

theorem Block.leaves_check (hR : Scopes.Frame N R) : ∀ {block : Block} {s : Scopes Ty},
    (∀ name ∈ block.names, name ∈ N) → Leaves R id s (block.check s)
  | .one stmt, s, hnames => by
    have hstmt : ∀ name ∈ stmt.names, name ∈ N := hnames
    exact Stmt.leaves_check hR hstmt
  | .more stmt rest, s, hnames => by
    obtain ⟨hstmt, hrest⟩ := List.forall_mem_append.mp hnames
    apply Leaves.bind hR.trans (Stmt.leaves_check hR hstmt)
    intro _ u
    exact Block.leaves_check hR hrest

end

/-- A check of a program leaves the names that do not occur in it as they are. -/
theorem Block.keeps_check {block : Block} (hnames : ∀ name ∈ block.names, name ∈ N) :
    Keeps N id s (block.check s) :=
  Block.leaves_check Scopes.frame_agree hnames

end

/-! ## Statement by statement -/

/-- The name that a statement declares in the scope in which it stands. -/
def Stmt.declared? : Stmt → Option String
  | .declare ident _ => some ident.name
  | _ => none

/-- A run of a block takes one statement after the other. -/
theorem Block.run_eq_forM [Writer σ] : ∀ block : Block,
    (block.run : Running σ Unit) = forM block.toList Stmt.run
  | .one stmt => by rw [run, toList, List.forM_cons, List.forM_nil, bind_pure_unit]
  | .more stmt rest => by rw [run, toList, List.forM_cons, run_eq_forM rest]

/-- A check of a block takes one statement after the other. -/
theorem Block.check_eq_forM : ∀ block : Block, block.check = forM block.toList Stmt.check
  | .one stmt => by rw [check, toList, List.forM_cons, List.forM_nil, bind_pure_unit]
  | .more stmt rest => by rw [check, toList, List.forM_cons, check_eq_forM rest]

end ListScript
