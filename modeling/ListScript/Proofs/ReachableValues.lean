import ListScript.Evaluation
import ListScript.Proofs.Ends
import ListScript.Proofs.ScopeRelation

/-!
# The values that programs make

Programs have no text, no missing value and no empty list to begin with, and none of their operators
makes one out of other values.

* `Value.Solid` : integers, truth values, and lists of such values that are not empty;
* `Scopes.All P` : every entry of every scope satisfies `P` (`Scopes.All.lookup?`,
  `Scopes.All.declare?`, `Scopes.All.update?`, `Scopes.All.enterWith`, `Scopes.All.exit`);
* `Expr.solid_of_eval` : where the variables have such values, so has every expression;
* `Stmt.keepsSolid_run`, `Block.keepsSolid_run` : the variables keep having such values, also where a
  run fails.
-/

namespace ListScript

/-- Integers, truth values, and lists that have elements, all of them such values. -/
inductive Value.Solid : Value → Prop
  | int (value : Int64) : Value.Solid (.int value)
  | bool (value : Bool) : Value.Solid (.bool value)
  | list {items : List Value} :
    items ≠ [] → (∀ item ∈ items, Value.Solid item) → Value.Solid (.list items)

theorem Value.Solid.list_inv {items : List Value} (h : Value.Solid (.list items)) :
    items ≠ [] ∧ ∀ item ∈ items, item.Solid := by
  cases h with
  | list hne hitems => exact ⟨hne, hitems⟩

/-! ## Every entry of some scopes -/

namespace Scopes

variable {α : Type} {P : α → Prop}

/-- Every entry of every scope satisfies `P`. -/
def All (P : α → Prop) (s : Scopes α) : Prop := ∀ scope ∈ s.toList, ∀ entry ∈ scope, P entry.2

namespace All

variable {s t : Scopes α} {name : String} {value : α}

theorem empty : All P (Scopes.empty : Scopes α) := by
  intro scope hscope entry hentry
  rw [List.mem_singleton.mp hscope] at hentry
  cases hentry

theorem enterWith (h : All P s) (name : String) (hv : P value) : All P (s.enterWith name value) := by
  intro scope hscope entry hentry
  rcases List.mem_cons.mp hscope with rfl | hscope
  · rw [List.mem_singleton.mp hentry]
    exact hv
  · exact h scope hscope entry hentry

theorem exit (h : All P s) : All P s.exit := by
  unfold Scopes.exit
  split
  · exact h
  · next scope rest houter =>
    intro other hother
    refine h other (List.mem_cons_of_mem _ ?_)
    rw [houter]
    exact hother

theorem declare? (h : All P s) (hv : P value) (ht : s.declare? name value = some t) : All P t := by
  unfold Scopes.declare? at ht
  split at ht <;> cases ht
  intro scope hscope entry hentry
  rcases List.mem_cons.mp hscope with rfl | hscope
  · rcases List.mem_cons.mp hentry with rfl | hentry
    · exact hv
    · exact h _ List.mem_cons_self entry hentry
  · exact h scope (List.mem_cons_of_mem _ hscope) entry hentry

theorem lookup? (h : All P s) (hv : s.lookup? name = some value) : P value := by
  obtain ⟨scope, hscope, hfind⟩ := List.exists_of_findSome?_eq_some hv
  obtain ⟨before, after, rfl, -⟩ := List.lookup_eq_some_iff.mp hfind
  exact h _ hscope (name, value) (List.mem_append_right _ List.mem_cons_self)

theorem replace {scope : Scope α} (h : ∀ entry ∈ scope, P entry.2) (hv : P value) :
    ∀ entry ∈ scope.replace name value, P entry.2 := by
  intro entry hentry
  obtain ⟨old, hold, rfl⟩ := List.mem_map.mp hentry
  show P (if old.1 = name then (old.1, value) else old).2
  split
  · exact hv
  · exact h old hold

theorem updateFirst {scopes : List (Scope α)} (h : ∀ scope ∈ scopes, ∀ entry ∈ scope, P entry.2)
    (hv : P value) : ∀ scope ∈ Scopes.updateFirst name value scopes, ∀ entry ∈ scope, P entry.2 := by
  induction scopes with
  | nil => exact nofun
  | cons scope rest ih =>
    obtain ⟨hscope, hrest⟩ := List.forall_mem_cons.mp h
    rw [Scopes.updateFirst]
    split
    · exact List.forall_mem_cons.mpr ⟨replace hscope hv, hrest⟩
    · exact List.forall_mem_cons.mpr ⟨hscope, ih hrest⟩

theorem update? (h : All P s) (hv : P value) (ht : s.update? name value = some t) : All P t := by
  unfold All
  rw [toList_of_update? ht]
  exact updateFirst h hv

end All

end Scopes

/-! ## Expressions -/

theorem narrow_eq_ok {α : Type} {x : Except ValueError α} {a : α} :
    narrow x = .ok a ↔ x = .ok a := by
  cases x with
  | ok b => simp [narrow]
  | error e => simp [narrow]

/-- Only a list is taken for a list. -/
theorem Value.expectList_eq_ok {v : Value} {items : List Value} :
    v.expectList = .ok items ↔ v = .list items := by
  cases v <;> simp [expectList]

variable {scopes : Scopes Value}

mutual

/-- Where the variables have such values, so has an expression. -/
theorem Expr.solid_of_eval (hs : scopes.All Value.Solid) :
    ∀ {e : Expr} {v : Value}, e.eval scopes = .ok v → v.Solid
  | .unary .negate e, v, h => by
    obtain ⟨_, -, hrest⟩ := bind_eq_ok.mp h
    obtain ⟨n, -, hv⟩ := bind_eq_ok.mp hrest
    cases hv
    exact .int _
  | .unary .not e, v, h => by
    obtain ⟨_, -, hrest⟩ := bind_eq_ok.mp h
    obtain ⟨b, -, hv⟩ := bind_eq_ok.mp hrest
    cases hv
    exact .bool _
  | .binary .add l r, v, h | .binary .multiply l r, v, h => by
    simp only [Expr.eval, bind_eq_ok, narrow_eq_ok] at h
    obtain ⟨_, -, m, -, _, -, n, -, hv⟩ := h
    cases hv
    exact .int _
  | .binary .and l r, v, h => by
    simp only [Expr.eval, bind_eq_ok, narrow_eq_ok] at h
    obtain ⟨_, -, b, -, hrest⟩ := h
    cases b with
    | false => cases hrest; exact .bool _
    | true =>
      obtain ⟨_, -, hrest⟩ := bind_eq_ok.mp hrest
      obtain ⟨c, -, hv⟩ := bind_eq_ok.mp hrest
      cases hv
      exact .bool _
  | .binary .equal l r, v, h => by
    simp only [Expr.eval, bind_eq_ok] at h
    obtain ⟨_, -, _, -, hv⟩ := h
    cases hv
    exact .bool _
  | .binary .cons l r, v, h => by
    simp only [Expr.eval, bind_eq_ok, narrow_eq_ok, Value.expectList_eq_ok] at h
    obtain ⟨head, hhead, _, htail, tail, rfl, hv⟩ := h
    cases hv
    have hlist := (Expr.solid_of_eval hs htail).list_inv
    exact .list (List.cons_ne_nil _ _)
      (List.forall_mem_cons.mpr ⟨Expr.solid_of_eval hs hhead, hlist.2⟩)
  | .int n, v, h => by cases h; exact .int n
  | .bool b, v, h => by cases h; exact .bool b
  | .list items, v, h => by
    obtain ⟨values, hvalues, hv⟩ := bind_eq_ok.mp h
    cases hv
    obtain ⟨hne, hall⟩ := Exprs.solid_of_eval hs hvalues
    exact .list hne hall
  | .var ident, v, h => by
    rw [Expr.eval] at h
    split at h
    · next hlookup => cases h; exact hs.lookup? hlookup
    · cases h

/-- The values of one or more expressions are one or more such values. -/
theorem Exprs.solid_of_eval (hs : scopes.All Value.Solid) : ∀ {es : Exprs} {vs : List Value},
    es.eval scopes = .ok vs → vs ≠ [] ∧ ∀ v ∈ vs, v.Solid
  | .one e, vs, h => by
    obtain ⟨v, hv, hvs⟩ := bind_eq_ok.mp h
    cases hvs
    exact ⟨List.cons_ne_nil _ _, List.forall_mem_singleton.mpr (Expr.solid_of_eval hs hv)⟩
  | .more e rest, vs, h => by
    obtain ⟨v, hv, htail⟩ := bind_eq_ok.mp h
    obtain ⟨tail, hrest, hvs⟩ := bind_eq_ok.mp htail
    cases hvs
    exact ⟨List.cons_ne_nil _ _, List.forall_mem_cons.mpr
      ⟨Expr.solid_of_eval hs hv, (Exprs.solid_of_eval hs hrest).2⟩⟩

end

/-! ## Statements -/

variable {σ : Type} {m : Machine σ}

/-- Whether a run succeeds or fails, all variables have such values after it. -/
def KeepsSolid : EStateM.Result EvalError (Machine σ) Unit → Prop :=
  Ends (fun _ m => m.scopes.All Value.Solid) fun _ m => m.scopes.All Value.Solid

namespace KeepsSolid

theorem bind {x : Running σ Unit} {y : Unit → Running σ Unit} (hx : KeepsSolid (x m))
    (hy : ∀ m', m'.scopes.All Value.Solid → KeepsSolid (y () m')) : KeepsSolid ((x >>= y) m) :=
  Ends.bind hx fun _ m' hm' => hy m' hm'

/-- A run that first evaluates an expression. -/
theorem eval {e : Expr} {y : Value → Running σ Unit} (hs : m.scopes.All Value.Solid)
    (hy : ∀ v, v.Solid → KeepsSolid (y v m)) : KeepsSolid ((Running.eval e >>= y) m) := by
  have heval : Ends (fun v t => v.Solid ∧ t = m) (fun _ t => t.scopes.All Value.Solid)
      (Running.eval e m) := by
    rw [Running.eval]
    cases hv : e.eval m.scopes with
    | ok v => exact .ok ⟨Expr.solid_of_eval hs hv, rfl⟩
    | error err => exact .error hs
  refine Ends.bind heval fun v t hvt => ?_
  obtain ⟨hv, rfl⟩ := hvt
  exact hy v hv

theorem output (hs : m.scopes.All Value.Solid) (step : EStateM String σ Unit) :
    KeepsSolid (Running.output step m) := by
  rw [Running.output]
  cases step m.sink with
  | ok u sink => exact .ok hs
  | error cause sink => exact .error hs

/-- A run in a scope of its own. -/
theorem inScope {body : Running σ Unit} {name : String} {v : Value}
    (hs : m.scopes.All Value.Solid) (hv : v.Solid)
    (hbody : ∀ m', m'.scopes.All Value.Solid → KeepsSolid (body m')) :
    KeepsSolid (Running.inScope name v body m) := by
  have hend := hbody { m with scopes := m.scopes.enterWith name v } (hs.enterWith name hv)
  rw [Running.inScope]
  cases hr : body { m with scopes := m.scopes.enterWith name v } with
  | ok u after => exact .ok (hend.of_ok hr).exit
  | error err after => exact .error (hend.of_error hr).exit

/-- A run for every one of some values. -/
theorem forEach {step : Value → Running σ Unit} {values : List Value}
    (hvalues : ∀ v ∈ values, v.Solid)
    (hstep : ∀ v m', v.Solid → m'.scopes.All Value.Solid → KeepsSolid (step v m'))
    (hs : m.scopes.All Value.Solid) : KeepsSolid (Running.forEach step values m) := by
  induction values generalizing m with
  | nil => exact .ok hs
  | cons v rest ih =>
    obtain ⟨hv, hrest⟩ := List.forall_mem_cons.mp hvalues
    exact bind (hstep v m hv hs) fun m' hs' => ih hrest hs'

end KeepsSolid

variable [Writer σ]

mutual

/-- A statement leaves such values to the variables. -/
theorem Stmt.keepsSolid_run : ∀ (stmt : Stmt) {m : Machine σ}, m.scopes.All Value.Solid →
    KeepsSolid (stmt.run m)
  | .declare ident e, m, hs => by
    refine KeepsSolid.eval hs fun v hv => ?_
    rw [Running.declare]
    cases hdeclare : m.scopes.declare? ident.name v with
    | some scopes => exact .ok (hs.declare? hv hdeclare)
    | none => exact .error hs
  | .assign ident e, m, hs => by
    refine KeepsSolid.eval hs fun v hv => ?_
    rw [Running.assign]
    cases hupdate : m.scopes.update? ident.name v with
    | some scopes => exact .ok (hs.update? hv hupdate)
    | none => exact .error hs
  | .print e, m, hs => KeepsSolid.eval hs fun v _ => KeepsSolid.output hs _
  | .forEach ident e body, m, hs => by
    refine KeepsSolid.eval hs fun v hv => ?_
    cases v with
    | list items =>
      refine KeepsSolid.forEach hv.list_inv.2 (fun v m' hv' hs' => ?_) hs
      exact KeepsSolid.inScope hs' hv' fun m'' hs'' => Block.keepsSolid_run body hs''
    | int | bool | string | option => exact .error hs

theorem Block.keepsSolid_run : ∀ (b : Block) {m : Machine σ}, m.scopes.All Value.Solid →
    KeepsSolid (b.run m)
  | .one stmt, _, hs => Stmt.keepsSolid_run stmt hs
  | .more stmt rest, _, hs =>
    KeepsSolid.bind (Stmt.keepsSolid_run stmt hs) fun _ hs' => Block.keepsSolid_run rest hs'

end

end ListScript
