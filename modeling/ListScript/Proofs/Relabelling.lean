import ListScript.Proofs.ScopeFrames
import ListScript.Proofs.TypeSoundness

/-!
# Programs with other names

A program in which other names stand in the places of its names goes the same way, if it is run and
checked in scopes that bind the other names as the names are bound. Only the names in its errors are
others.

* `Expr.relabel`, `Stmt.relabel`, `Block.relabel` : a program with other names;
  `EvalError.relabel`, `TypeError.relabel` : an error with another name; `Block.relabel_eq_self` : each
  name may stand for itself;
* `Expr.eval_relabel`, `Expr.infer_relabel` : expressions;
* `Scopes.Relabels f N R` : stacks that `R` relates bind the names in `N` and what `f` makes of them
  alike, and go on to do so;
* `Writer.Alike`, `Machine.Related` : two writers that give the same answers, and two machines with
  such scopes and such writers;
* `Block.endAlike_run_relabel`, `Block.endAlike_execute_relabel`, `Block.endAlike_check_relabel` :
  statements;
* `Block.endAlike_execute_moved`, `Block.endAlike_check_moved` : the same names in other places.
-/

namespace ListScript

variable {f : Ident → Ident} {N : Set String}

/-! ## Other names -/

section Trees

variable (f : Ident → Ident)

mutual

/-- The same expression with other names. -/
def Expr.relabel : Expr → Expr
  | .unary op operand => .unary op operand.relabel
  | .binary op left right => .binary op left.relabel right.relabel
  | .int value => .int value
  | .bool value => .bool value
  | .list items => .list items.relabel
  | .var ident => .var (f ident)

/-- The same expressions with other names. -/
def Exprs.relabel : Exprs → Exprs
  | .one item => .one item.relabel
  | .more item rest => .more item.relabel rest.relabel

end

mutual

/-- The same statement with other names, be they used, assigned, declared, or bound by a loop. -/
def Stmt.relabel : Stmt → Stmt
  | .declare ident value => .declare (f ident) (value.relabel f)
  | .assign ident value => .assign (f ident) (value.relabel f)
  | .print value => .print (value.relabel f)
  | .forEach ident items body => .forEach (f ident) (items.relabel f) body.relabel

/-- The same statements with other names. -/
def Block.relabel : Block → Block
  | .one stmt => .one stmt.relabel
  | .more stmt rest => .more stmt.relabel rest.relabel

end

/-- The same error with another name. -/
def EvalError.relabel : EvalError → EvalError
  | .value error => .value error
  | .undeclared name position => (f ⟨name, position⟩).unbound
  | .alreadyDeclared name position =>
    .alreadyDeclared (f ⟨name, position⟩).name (f ⟨name, position⟩).position
  | .output cause => .output cause

/-- The same error with another name. -/
def TypeError.relabel : TypeError → TypeError
  | .mismatch expected found => .mismatch expected found
  | .undeclared name position => (f ⟨name, position⟩).untyped
  | .alreadyDeclared name position =>
    .alreadyDeclared (f ⟨name, position⟩).name (f ⟨name, position⟩).position

/-- The second error is the first one with another name. -/
def EvalError.IsRelabelled (err err' : EvalError) : Prop := err' = err.relabel f

/-- The second error is the first one with another name. -/
def TypeError.IsRelabelled (err err' : TypeError) : Prop := err' = err.relabel f

end Trees

mutual

/-- Nothing changes if each of the names stands for itself. -/
theorem Expr.relabel_eq_self (hf : ∀ ident : Ident, ident.name ∈ N → f ident = ident) :
    ∀ {e : Expr}, (∀ name ∈ e.names, name ∈ N) → e.relabel f = e
  | .unary op e, hnames => by
    have he : ∀ name ∈ e.names, name ∈ N := hnames
    rw [Expr.relabel, Expr.relabel_eq_self hf he]
  | .binary op l r, hnames => by
    obtain ⟨hl, hr⟩ := List.forall_mem_append.mp hnames
    rw [Expr.relabel, Expr.relabel_eq_self hf hl, Expr.relabel_eq_self hf hr]
  | .int _, _ => rfl
  | .bool _, _ => rfl
  | .list items, hnames => by
    have hitems : ∀ name ∈ items.names, name ∈ N := hnames
    rw [Expr.relabel, Exprs.relabel_eq_self hf hitems]
  | .var ident, hnames => by
    rw [Expr.relabel, hf ident (hnames _ (List.mem_singleton.mpr rfl))]

theorem Exprs.relabel_eq_self (hf : ∀ ident : Ident, ident.name ∈ N → f ident = ident) :
    ∀ {es : Exprs}, (∀ name ∈ es.names, name ∈ N) → es.relabel f = es
  | .one e, hnames => by
    have he : ∀ name ∈ e.names, name ∈ N := hnames
    rw [Exprs.relabel, Expr.relabel_eq_self hf he]
  | .more e rest, hnames => by
    obtain ⟨he, hrest⟩ := List.forall_mem_append.mp hnames
    rw [Exprs.relabel, Expr.relabel_eq_self hf he, Exprs.relabel_eq_self hf hrest]

end

mutual

/-- Nothing changes if each of the names stands for itself. -/
theorem Stmt.relabel_eq_self (hf : ∀ ident : Ident, ident.name ∈ N → f ident = ident) :
    ∀ {stmt : Stmt}, (∀ name ∈ stmt.names, name ∈ N) → stmt.relabel f = stmt
  | .declare ident e, hnames => by
    obtain ⟨hname, he⟩ := List.forall_mem_cons.mp hnames
    rw [Stmt.relabel, hf ident hname, Expr.relabel_eq_self hf he]
  | .assign ident e, hnames => by
    obtain ⟨hname, he⟩ := List.forall_mem_cons.mp hnames
    rw [Stmt.relabel, hf ident hname, Expr.relabel_eq_self hf he]
  | .print e, hnames => by
    have he : ∀ name ∈ e.names, name ∈ N := hnames
    rw [Stmt.relabel, Expr.relabel_eq_self hf he]
  | .forEach ident e body, hnames => by
    obtain ⟨hname, hrest⟩ := List.forall_mem_cons.mp hnames
    obtain ⟨he, hbody⟩ := List.forall_mem_append.mp hrest
    rw [Stmt.relabel, hf ident hname, Expr.relabel_eq_self hf he, Block.relabel_eq_self hf hbody]

theorem Block.relabel_eq_self (hf : ∀ ident : Ident, ident.name ∈ N → f ident = ident) :
    ∀ {block : Block}, (∀ name ∈ block.names, name ∈ N) → block.relabel f = block
  | .one stmt, hnames => by
    have hstmt : ∀ name ∈ stmt.names, name ∈ N := hnames
    rw [Block.relabel, Stmt.relabel_eq_self hf hstmt]
  | .more stmt rest, hnames => by
    obtain ⟨hstmt, hrest⟩ := List.forall_mem_append.mp hnames
    rw [Block.relabel, Stmt.relabel_eq_self hf hstmt, Block.relabel_eq_self hf hrest]

end

theorem EvalError.isRelabelled_id : EvalError.IsRelabelled id = Eq := by
  funext err err'
  cases err <;> exact propext eq_comm

theorem TypeError.isRelabelled_id : TypeError.IsRelabelled id = Eq := by
  funext err err'
  cases err <;> exact propext eq_comm

/-! ## Expressions -/

section Expressions

variable {ε δ α β : Type}

/-- The errors of two computations, one after the other, are changed in both. -/
theorem mapError_bind (g : ε → δ) (x : Except ε α) (next : α → Except ε β) :
    (x >>= next).mapError g = x.mapError g >>= fun a => (next a).mapError g := by
  cases x with
  | ok a => rfl
  | error e => rfl

theorem mapError_discard (g : ε → δ) (x : Except ε α) :
    (discard x).mapError g = discard (x.mapError g) := by
  cases x with
  | ok a => rfl
  | error e => rfl

/-- A value of the wrong shape has no name. -/
theorem mapError_narrow (f : Ident → Ident) (x : Except ValueError α) :
    (narrow x).mapError (EvalError.relabel f) = narrow x := by
  cases x with
  | ok a => rfl
  | error e => rfl

/-- Nor has a mismatch of types. -/
theorem Ty.mapError_expect (f : Ident → Ident) (T U : Ty) :
    (T.expect U).mapError (TypeError.relabel f) = T.expect U := by
  unfold Ty.expect
  split
  · rfl
  · rfl

theorem Ty.mapError_element (f : Ident → Ident) (T : Ty) :
    T.element.mapError (TypeError.relabel f) = T.element := by
  cases T <;> rfl

end Expressions

section Values

variable {s t : Scopes Value}

mutual

/-- An expression with other names has the same value where these have the same values. -/
theorem Expr.eval_relabel
    (h : ∀ ident : Ident, ident.name ∈ N → t.lookup? (f ident).name = s.lookup? ident.name) :
    ∀ {e : Expr}, (∀ name ∈ e.names, name ∈ N) →
      (e.relabel f).eval t = (e.eval s).mapError (EvalError.relabel f)
  | .unary op e, hnames => by
    have he := Expr.eval_relabel h (e := e) hnames
    cases op with
    | negate | not =>
      simp only [Expr.relabel, Expr.eval, he, mapError_bind, mapError_narrow]
      rfl
  | .binary op l r, hnames => by
    obtain ⟨hleft, hright⟩ := List.forall_mem_append.mp hnames
    have hl := Expr.eval_relabel h hleft
    have hr := Expr.eval_relabel h hright
    cases op with
    | and =>
      -- what follows the left operand depends on its value
      simp only [Expr.relabel, Expr.eval, hl, hr, mapError_bind, mapError_narrow]
      congr 1
      funext v
      congr 1
      funext b
      cases b with
      | true =>
        simp only [if_true, mapError_bind, mapError_narrow]
        rfl
      | false => rfl
    | add | multiply | equal | cons =>
      simp only [Expr.relabel, Expr.eval, hl, hr, mapError_bind, mapError_narrow]
      rfl
  | .int _, _ => rfl
  | .bool _, _ => rfl
  | .list items, hnames => by
    have hitems : ∀ name ∈ items.names, name ∈ N := hnames
    simp only [Expr.relabel, Expr.eval, Exprs.eval_relabel h hitems, mapError_bind]
    rfl
  | .var ident, hnames => by
    rw [Expr.relabel, Expr.eval, Expr.eval, h ident (hnames _ (List.mem_singleton.mpr rfl))]
    cases s.lookup? ident.name with
    | some v => rfl
    | none => rfl

theorem Exprs.eval_relabel
    (h : ∀ ident : Ident, ident.name ∈ N → t.lookup? (f ident).name = s.lookup? ident.name) :
    ∀ {es : Exprs}, (∀ name ∈ es.names, name ∈ N) →
      (es.relabel f).eval t = (es.eval s).mapError (EvalError.relabel f)
  | .one e, hnames => by
    simp only [Exprs.relabel, Exprs.eval, Expr.eval_relabel h (e := e) hnames, mapError_bind]
    rfl
  | .more e rest, hnames => by
    obtain ⟨he, hrest⟩ := List.forall_mem_append.mp hnames
    simp only [Exprs.relabel, Exprs.eval, Expr.eval_relabel h he, Exprs.eval_relabel h hrest,
      mapError_bind]
    rfl

end

end Values

section Types

variable {s t : Scopes Ty}

mutual

/-- An expression with other names has the same type where these have the same types. -/
theorem Expr.infer_relabel
    (h : ∀ ident : Ident, ident.name ∈ N → t.lookup? (f ident).name = s.lookup? ident.name) :
    ∀ {e : Expr}, (∀ name ∈ e.names, name ∈ N) →
      (e.relabel f).infer t = (e.infer s).mapError (TypeError.relabel f)
  | .unary op e, hnames => by
    simp only [Expr.relabel, Expr.infer, Expr.infer_relabel h (e := e) hnames, mapError_bind,
      Ty.mapError_expect]
  | .binary op l r, hnames => by
    obtain ⟨hleft, hright⟩ := List.forall_mem_append.mp hnames
    have hl := Expr.infer_relabel h hleft
    have hr := Expr.infer_relabel h hright
    cases op with
    | add | multiply | and =>
      simp only [Expr.relabel, Expr.infer, hl, hr, mapError_bind, mapError_discard,
        Ty.mapError_expect]
    | equal | cons =>
      simp only [Expr.relabel, Expr.infer, hl, hr, mapError_bind, mapError_discard,
        Ty.mapError_expect, Ty.mapError_element]
      rfl
  | .int _, _ => rfl
  | .bool _, _ => rfl
  | .list items, hnames => by
    have hitems : ∀ name ∈ items.names, name ∈ N := hnames
    exact Exprs.infer_relabel h hitems
  | .var ident, hnames => by
    rw [Expr.relabel, Expr.infer, Expr.infer, h ident (hnames _ (List.mem_singleton.mpr rfl))]
    cases s.lookup? ident.name with
    | some T => rfl
    | none => rfl

theorem Exprs.infer_relabel
    (h : ∀ ident : Ident, ident.name ∈ N → t.lookup? (f ident).name = s.lookup? ident.name) :
    ∀ {es : Exprs}, (∀ name ∈ es.names, name ∈ N) →
      (es.relabel f).infer t = (es.infer s).mapError (TypeError.relabel f)
  | .one e, hnames => by
    simp only [Exprs.relabel, Exprs.infer, Expr.infer_relabel h (e := e) hnames, mapError_bind]
    rfl
  | .more e rest, hnames => by
    obtain ⟨he, hrest⟩ := List.forall_mem_append.mp hnames
    simp only [Exprs.relabel, Exprs.infer, Expr.infer_relabel h he, Exprs.infer_relabel h hrest,
      mapError_bind, mapError_discard, Ty.mapError_expect, Ty.mapError_element]
    rfl

end

end Types

/-! ## Scopes with other names -/

/-- Stacks that are related bind the names in `N` and what `f` makes of them to the same, and the
operations that name them go the same way in both and lead to stacks that are related again. The
number is that of the scopes that have begun since. -/
structure Scopes.Relabels {α : Type} (f : Ident → Ident) (N : Set String)
    (R : Nat → Scopes α → Scopes α → Prop) : Prop where
  lookup {n : Nat} {s t : Scopes α} : R n s t →
    ∀ ident : Ident, ident.name ∈ N → t.lookup? (f ident).name = s.lookup? ident.name
  declare {n : Nat} {s t : Scopes α} : R n s t → ∀ (ident : Ident) (a : α), ident.name ∈ N →
    Option.Rel (R n) (s.declare? ident.name a) (t.declare? (f ident).name a)
  update {n : Nat} {s t : Scopes α} : R n s t → ∀ (ident : Ident) (a : α), ident.name ∈ N →
    Option.Rel (R n) (s.update? ident.name a) (t.update? (f ident).name a)
  enter {n : Nat} {s t : Scopes α} : R n s t → ∀ (ident : Ident) (a : α), ident.name ∈ N →
    R (n + 1) (s.enterWith ident.name a) (t.enterWith (f ident).name a)
  exit {n : Nat} {s t : Scopes α} : R (n + 1) s t → R n s.exit t.exit

/-- Names that only move stay bound as they are. -/
theorem Scopes.relabels_of_name_eq {α : Type} (h : ∀ ident, (f ident).name = ident.name) :
    Scopes.Relabels (α := α) f N fun _ => Eq where
  lookup := by
    rintro n s _ rfl ident -
    rw [h]
  declare := by
    rintro n s _ rfl ident a -
    rw [h]
    exact option_rel_eq_iff.mpr rfl
  update := by
    rintro n s _ rfl ident a -
    rw [h]
    exact option_rel_eq_iff.mpr rfl
  enter := by
    rintro n s _ rfl ident a -
    rw [h]
  exit := by
    rintro n s _ rfl
    rfl

/-! ## Two runs -/

variable {σ τ : Type}

namespace Running

variable {E : EvalError → EvalError → Prop} {R R' : Machine σ → Machine τ → Prop}
variable {m : Machine σ} {m' : Machine τ}

/-- What the bodies leave behind is related again when the scopes end that they have begun in. -/
theorem endAlike_inScope {body : Running σ Unit} {body' : Running τ Unit} {name name' : String}
    {v v' : Value} (hbody : EndAlike E R' (body { m with scopes := m.scopes.enterWith name v })
      (body' { m' with scopes := m'.scopes.enterWith name' v' }))
    (hexit : ∀ u u', R' u u' →
      R { u with scopes := u.scopes.exit } { u' with scopes := u'.scopes.exit }) :
    EndAlike E R (inScope name v body m) (inScope name' v' body' m') := by
  unfold inScope
  generalize body _ = r, body' _ = r' at hbody
  cases hbody with
  | ok hafter => exact .ok (hexit _ _ hafter)
  | error he hafter => exact .error he (hexit _ _ hafter)

theorem endAlike_forEach {step : Value → Running σ Unit} {step' : Value → Running τ Unit}
    (values : List Value) (hstep : ∀ v m m', R m m' → EndAlike E R (step v m) (step' v m'))
    (h : R m m') : EndAlike E R (forEach step values m) (forEach step' values m') := by
  induction values generalizing m m' with
  | nil => exact .ok h
  | cons v rest ih =>
    apply EndAlike.bind (hstep v m m' h)
    intro _ u u' hu
    exact ih hu

end Running

/-- Writers that are related give the same answers and are related afterwards. -/
def Writer.Alike [Writer σ] [Writer τ] (W : σ → τ → Prop) : Prop :=
  ∀ (piece : Option (List UInt8)) (w : σ) (w' : τ), W w w' →
    EndAlike Eq W (Writer.answer piece w) (Writer.answer piece w')

theorem Writer.alike_eq [Writer σ] : Writer.Alike (Eq : σ → σ → Prop) := by
  rintro piece w _ rfl
  cases Writer.answer piece w with
  | ok _ _ => exact .ok rfl
  | error _ _ => exact .error rfl rfl

/-- The machines have scopes that are related, and writers that are. -/
structure Machine.Related (R : Scopes Value → Scopes Value → Prop) (W : σ → τ → Prop)
    (m : Machine σ) (m' : Machine τ) : Prop where
  scopes : R m.scopes m'.scopes
  sink : W m.sink m'.sink

theorem Machine.related_eq_iff {m m' : Machine σ} : Related Eq Eq m m' ↔ m = m' := by
  obtain ⟨scopes, sink⟩ := m
  obtain ⟨scopes', sink'⟩ := m'
  constructor
  · rintro ⟨hscopes, hsink⟩
    exact congr (congrArg Machine.mk hscopes) hsink
  · rintro h
    cases h
    exact ⟨rfl, rfl⟩

section Runs

variable {R : Nat → Scopes Value → Scopes Value → Prop} {W : σ → τ → Prop}
variable {n : Nat} {m : Machine σ} {m' : Machine τ}

namespace Running

theorem endAlike_eval_relabel (hR : Scopes.Relabels f N R) (h : Machine.Related (R n) W m m')
    {e : Expr} (hnames : ∀ name ∈ e.names, name ∈ N) :
    EndAlike (EvalError.IsRelabelled f) (Machine.Related (R n) W) (eval e m)
      (eval (e.relabel f) m') := by
  unfold eval
  rw [Expr.eval_relabel (hR.lookup h.scopes) hnames]
  cases e.eval m.scopes with
  | ok v => exact .ok h
  | error err => exact .error rfl h

/-- A value of the wrong shape has no name. -/
theorem endAlike_narrow {α : Type} {Q : Machine σ → Machine τ → Prop} (h : Q m m')
    (x : Except ValueError α) : EndAlike (EvalError.IsRelabelled f) Q (ofExcept (narrow x) m)
      (ofExcept (narrow x) m') := by
  cases x with
  | ok a => exact .ok h
  | error err => exact .error rfl h

theorem endAlike_declare_relabel (hR : Scopes.Relabels f N R) (h : Machine.Related (R n) W m m')
    {ident : Ident} (hname : ident.name ∈ N) (v : Value) :
    EndAlike (EvalError.IsRelabelled f) (Machine.Related (R n) W) (declare ident v m)
      (declare (f ident) v m') := by
  have hrel := hR.declare h.scopes ident v hname
  unfold declare
  generalize m.scopes.declare? _ v = x, m'.scopes.declare? _ v = x' at hrel
  cases hrel with
  | none => exact .error rfl h
  | some hscopes => exact .ok ⟨hscopes, h.sink⟩

theorem endAlike_assign_relabel (hR : Scopes.Relabels f N R) (h : Machine.Related (R n) W m m')
    {ident : Ident} (hname : ident.name ∈ N) (v : Value) :
    EndAlike (EvalError.IsRelabelled f) (Machine.Related (R n) W) (assign ident v m)
      (assign (f ident) v m') := by
  have hrel := hR.update h.scopes ident v hname
  unfold assign
  generalize m.scopes.update? _ v = x, m'.scopes.update? _ v = x' at hrel
  cases hrel with
  | none => exact .error rfl h
  | some hscopes => exact .ok ⟨hscopes, h.sink⟩

theorem endAlike_output [Writer σ] [Writer τ] (hW : Writer.Alike W) {Q : Scopes Value → Scopes Value → Prop}
    (h : Machine.Related Q W m m') (piece : Option (List UInt8)) :
    EndAlike (EvalError.IsRelabelled f) (Machine.Related Q W) (output (Writer.answer piece) m)
      (output (Writer.answer piece) m') := by
  have hsink := hW piece _ _ h.sink
  unfold output
  generalize Writer.answer piece m.sink = r, Writer.answer piece m'.sink = r' at hsink
  cases hsink with
  | ok hafter => exact .ok ⟨h.scopes, hafter⟩
  | error hcause hafter => exact .error (congrArg EvalError.output hcause.symm) ⟨h.scopes, hafter⟩

end Running

variable [Writer σ] [Writer τ]

mutual

/-- A statement with other names runs alike. -/
theorem Stmt.endAlike_run_relabel (hR : Scopes.Relabels f N R) (hW : Writer.Alike W) :
    ∀ {stmt : Stmt} {n : Nat} {m : Machine σ} {m' : Machine τ}, (∀ name ∈ stmt.names, name ∈ N) →
      Machine.Related (R n) W m m' →
      EndAlike (EvalError.IsRelabelled f) (Machine.Related (R n) W) (stmt.run m)
        ((stmt.relabel f).run m')
  | .declare ident e, n, m, m', hnames, h => by
    obtain ⟨hname, he⟩ := List.forall_mem_cons.mp hnames
    apply EndAlike.bind (Running.endAlike_eval_relabel hR h he)
    intro v u u' hu
    exact Running.endAlike_declare_relabel hR hu hname v
  | .assign ident e, n, m, m', hnames, h => by
    obtain ⟨hname, he⟩ := List.forall_mem_cons.mp hnames
    apply EndAlike.bind (Running.endAlike_eval_relabel hR h he)
    intro v u u' hu
    exact Running.endAlike_assign_relabel hR hu hname v
  | .print e, n, m, m', hnames, h => by
    apply EndAlike.bind (Running.endAlike_eval_relabel hR h hnames)
    intro v u u' hu
    exact Running.endAlike_output hW hu (some _)
  | .forEach ident e body, n, m, m', hnames, h => by
    obtain ⟨hname, hrest⟩ := List.forall_mem_cons.mp hnames
    obtain ⟨he, hbody⟩ := List.forall_mem_append.mp hrest
    apply EndAlike.bind (Running.endAlike_eval_relabel hR h he)
    intro list u u' hu
    apply EndAlike.bind (Running.endAlike_narrow hu list.expectList)
    intro values u u' hu
    apply Running.endAlike_forEach values _ hu
    intro v u u' hu
    apply Running.endAlike_inScope
    · exact Block.endAlike_run_relabel hR hW hbody ⟨hR.enter hu.scopes ident v hname, hu.sink⟩
    · exact fun _ _ hafter => ⟨hR.exit hafter.scopes, hafter.sink⟩

theorem Block.endAlike_run_relabel (hR : Scopes.Relabels f N R) (hW : Writer.Alike W) :
    ∀ {block : Block} {n : Nat} {m : Machine σ} {m' : Machine τ},
      (∀ name ∈ block.names, name ∈ N) → Machine.Related (R n) W m m' →
      EndAlike (EvalError.IsRelabelled f) (Machine.Related (R n) W) (block.run m)
        ((block.relabel f).run m')
  | .one stmt, n, m, m', hnames, h => by
    have hstmt : ∀ name ∈ stmt.names, name ∈ N := hnames
    exact Stmt.endAlike_run_relabel hR hW hstmt h
  | .more stmt rest, n, m, m', hnames, h => by
    obtain ⟨hstmt, hrest⟩ := List.forall_mem_append.mp hnames
    apply EndAlike.bind (Stmt.endAlike_run_relabel hR hW hstmt h)
    intro _ u u' hu
    exact Block.endAlike_run_relabel hR hW hrest hu

end

theorem Block.endAlike_execute_relabel (hR : Scopes.Relabels f N R) (hW : Writer.Alike W)
    {program : Block} (hnames : ∀ name ∈ program.names, name ∈ N)
    (h : Machine.Related (R n) W m m') :
    EndAlike (EvalError.IsRelabelled f) (Machine.Related (R n) W) (program.execute m)
      ((program.relabel f).execute m') := by
  apply EndAlike.bind (Block.endAlike_run_relabel hR hW hnames h)
  intro _ u u' hu
  exact Running.endAlike_output hW hu none

end Runs

/-! ## Two checks -/

section Checks

variable {R : Nat → Scopes Ty → Scopes Ty → Prop} {n : Nat} {s t : Scopes Ty}

namespace Checking

/-- What the bodies leave behind is related again when the scopes end that they have begun in. -/
theorem endAlike_inScope {E : TypeError → TypeError → Prop} {Q Q' : Scopes Ty → Scopes Ty → Prop}
    {body body' : Checking Unit} {name name' : String} {T T' : Ty}
    (hbody : EndAlike E Q' (body (s.enterWith name T)) (body' (t.enterWith name' T')))
    (hexit : ∀ u u', Q' u u' → Q u.exit u'.exit) :
    EndAlike E Q (inScope name T body s) (inScope name' T' body' t) := by
  unfold inScope
  generalize body _ = r, body' _ = r' at hbody
  cases hbody with
  | ok hafter => exact .ok (hexit _ _ hafter)
  | error he hafter => exact .error he (hexit _ _ hafter)

theorem endAlike_infer_relabel (hR : Scopes.Relabels f N R) (h : R n s t) {e : Expr}
    (hnames : ∀ name ∈ e.names, name ∈ N) :
    EndAlike (TypeError.IsRelabelled f) (R n) (infer e s) (infer (e.relabel f) t) := by
  unfold infer
  rw [Expr.infer_relabel (hR.lookup h) hnames]
  cases e.infer s with
  | ok T => exact .ok h
  | error err => exact .error rfl h

theorem endAlike_declare_relabel (hR : Scopes.Relabels f N R) (h : R n s t) {ident : Ident}
    (hname : ident.name ∈ N) (T : Ty) :
    EndAlike (TypeError.IsRelabelled f) (R n) (declare ident T s) (declare (f ident) T t) := by
  have hrel := hR.declare h ident T hname
  unfold declare
  generalize s.declare? _ T = x, t.declare? _ T = x' at hrel
  cases hrel with
  | none => exact .error rfl h
  | some hscopes => exact .ok hscopes

theorem endAlike_typeOf_relabel (hR : Scopes.Relabels f N R) (h : R n s t) {ident : Ident}
    (hname : ident.name ∈ N) :
    EndAlike (TypeError.IsRelabelled f) (R n) (typeOf ident s) (typeOf (f ident) t) := by
  unfold typeOf
  rw [hR.lookup h ident hname]
  cases s.lookup? ident.name with
  | some T => exact .ok h
  | none => exact .error rfl h

/-- An error without a name stays as it is. -/
theorem endAlike_ofExcept_relabel {α : Type} {Q : Scopes Ty → Scopes Ty → Prop} (h : Q s t)
    {x : Except TypeError α} (hx : x.mapError (TypeError.relabel f) = x) :
    EndAlike (TypeError.IsRelabelled f) Q (ofExcept x s) (ofExcept x t) := by
  cases x with
  | ok a => exact .ok h
  | error err => exact .error (Except.error.inj hx).symm h

end Checking

mutual

/-- A statement with other names is checked alike. -/
theorem Stmt.endAlike_check_relabel (hR : Scopes.Relabels f N R) :
    ∀ {stmt : Stmt} {n : Nat} {s t : Scopes Ty}, (∀ name ∈ stmt.names, name ∈ N) → R n s t →
      EndAlike (TypeError.IsRelabelled f) (R n) (stmt.check s) ((stmt.relabel f).check t)
  | .declare ident e, n, s, t, hnames, h => by
    obtain ⟨hname, he⟩ := List.forall_mem_cons.mp hnames
    apply EndAlike.bind (Checking.endAlike_infer_relabel hR h he)
    intro T u u' hu
    exact Checking.endAlike_declare_relabel hR hu hname T
  | .assign ident e, n, s, t, hnames, h => by
    obtain ⟨hname, he⟩ := List.forall_mem_cons.mp hnames
    apply EndAlike.bind (Checking.endAlike_infer_relabel hR h he)
    intro found u u' hu
    apply EndAlike.bind (Checking.endAlike_typeOf_relabel hR hu hname)
    intro declared u u' hu
    apply EndAlike.discard
    exact Checking.endAlike_ofExcept_relabel hu (Ty.mapError_expect f declared found)
  | .print e, n, s, t, hnames, h =>
    EndAlike.discard (Checking.endAlike_infer_relabel hR h hnames)
  | .forEach ident e body, n, s, t, hnames, h => by
    obtain ⟨hname, hrest⟩ := List.forall_mem_cons.mp hnames
    obtain ⟨he, hbody⟩ := List.forall_mem_append.mp hrest
    apply EndAlike.bind (Checking.endAlike_infer_relabel hR h he)
    intro list u u' hu
    apply EndAlike.bind (Checking.endAlike_ofExcept_relabel hu (Ty.mapError_element f list))
    intro element u u' hu
    apply Checking.endAlike_inScope
    · exact Block.endAlike_check_relabel hR hbody (hR.enter hu ident element hname)
    · exact fun _ _ hafter => hR.exit hafter

theorem Block.endAlike_check_relabel (hR : Scopes.Relabels f N R) :
    ∀ {block : Block} {n : Nat} {s t : Scopes Ty}, (∀ name ∈ block.names, name ∈ N) → R n s t →
      EndAlike (TypeError.IsRelabelled f) (R n) (block.check s) ((block.relabel f).check t)
  | .one stmt, n, s, t, hnames, h => by
    have hstmt : ∀ name ∈ stmt.names, name ∈ N := hnames
    exact Stmt.endAlike_check_relabel hR hstmt h
  | .more stmt rest, n, s, t, hnames, h => by
    obtain ⟨hstmt, hrest⟩ := List.forall_mem_append.mp hnames
    apply EndAlike.bind (Stmt.endAlike_check_relabel hR hstmt h)
    intro _ u u' hu
    exact Block.endAlike_check_relabel hR hrest hu

end

end Checks

/-! ## Names in other places -/

section Moved

variable [Writer σ] (hf : ∀ ident, (f ident).name = ident.name)
include hf

/-- A program runs alike if its names only move. -/
theorem Block.endAlike_execute_moved (program : Block) (m : Machine σ) :
    EndAlike (EvalError.IsRelabelled f) Eq (program.execute m) ((program.relabel f).execute m) := by
  have hnames : ∀ name ∈ program.names, name ∈ Set.univ := fun name _ => Set.mem_univ name
  have hrun := Block.endAlike_execute_relabel (n := 0) (Scopes.relabels_of_name_eq hf)
    Writer.alike_eq hnames (Machine.related_eq_iff.mpr (Eq.refl m))
  exact hrun.mono fun _ _ => Machine.related_eq_iff.mp

omit [Writer σ] in
/-- It is checked alike. -/
theorem Block.endAlike_check_moved (block : Block) (s : Scopes Ty) :
    EndAlike (TypeError.IsRelabelled f) Eq (block.check s) ((block.relabel f).check s) := by
  have hnames : ∀ name ∈ block.names, name ∈ Set.univ := fun name _ => Set.mem_univ name
  exact Block.endAlike_check_relabel (n := 0) (Scopes.relabels_of_name_eq hf) hnames (Eq.refl s)

end Moved

end ListScript
