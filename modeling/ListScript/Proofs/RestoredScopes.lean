import ListScript.Proofs.Moments
import ListScript.Proofs.ScopeFrames

/-!
# The scopes that a run leaves behind

However a run ends, the scopes that it has begun have ended, and those in which it began are there with
the names that they had, besides the names that it has declared in the innermost itself.

* `Scope.names` : the names that a scope binds;
* `Scopes.valueAt?`, `Scopes.Shadows` : the value of a name in one scope, and whether a scope further
  in hides it;
* `Scopes.Restored declared s t` : `t` has the names of `s` and those in `declared`, and what is hidden
  in `s` has not changed (`Restored.trans`, `Restored.exit`, `restored_of_declare?`,
  `restored_of_update?`);
* `Stmt.restored_run`, `Block.restored_run`, `Machine.restored_afterAll` : the scopes that are left by
  statements, by blocks, and by programs that run one after the other;
* `scopes_restored` : all of it for the machine before and after.
-/

namespace ListScript

variable {α : Type}

/-! ## Names and hidden names -/

/-- The names that a scope binds, the last one declared first. -/
def Scope.names (scope : Scope α) : List String := scope.map Prod.fst

theorem Scope.binds_iff {scope : Scope α} {name : String} :
    scope.binds name = true ↔ name ∈ scope.names := by
  rw [binds, find?, List.lookup_isSome_iff, names, List.mem_map]
  exact exists_congr fun entry => and_congr_right fun _ => beq_iff_eq.trans eq_comm

@[simp] theorem Scope.names_replace (scope : Scope α) (name : String) (value : α) :
    (scope.replace name value).names = scope.names := by
  rw [names, names, replace, List.map_map]
  apply List.map_congr_left
  intro entry _
  rw [Function.comp_apply]
  split <;> rfl

namespace Scopes

/-- The value of a name in the scope that has `i` scopes inside. -/
def valueAt? (s : Scopes α) (i : Nat) (name : String) : Option α :=
  s.toList[i]?.bind (·.find? name)

/-- One of the `i` innermost scopes binds the name. -/
def Shadows (s : Scopes α) (i : Nat) (name : String) : Prop :=
  ∃ scope ∈ s.toList.take i, scope.binds name

/-- The scopes `t` have the names of `s`, and the innermost has those besides that have been declared
in it. Values that are hidden in `s` are the same in `t`. -/
structure Restored (declared : List String) (s t : Scopes α) : Prop where
  inner : t.inner.names = declared.reverse ++ s.inner.names
  outer : t.outer.map Scope.names = s.outer.map Scope.names
  hidden : ∀ i name, s.Shadows i name → t.valueAt? i name = s.valueAt? i name

variable {s t u : Scopes α} {name : String} {value : α}

/-- Nothing hides a name in the innermost scope. -/
theorem not_shadows_zero : ¬ s.Shadows 0 name := fun ⟨_, hscope, _⟩ => nomatch hscope

/-- What is hidden depends on nothing but the names. -/
theorem shadows_iff {i : Nat} :
    s.Shadows i name ↔ ∃ names ∈ (s.toList.map Scope.names).take i, name ∈ names := by
  rw [← List.map_take]
  simp only [Shadows, Scope.binds_iff, List.mem_map, exists_exists_and_eq_and]

/-- Scopes that agree on a name have the same values for it. -/
theorem Agree.valueAt?_eq {names : Set String} (h : Agree names Eq s t) (hn : name ∈ names) (i : Nat) :
    s.valueAt? i name = t.valueAt? i name := by
  unfold Agree at h
  unfold valueAt?
  generalize s.toList = ss, t.toList = ts at h ⊢
  induction h generalizing i with
  | nil => rfl
  | cons hscope _ ih =>
    cases i with
    | zero => exact Scope.agree_eq_iff.1 hscope name hn
    | succ i => exact ih i

namespace Restored

variable {declared later : List String}

theorem refl (s : Scopes α) : Restored [] s s := ⟨rfl, rfl, fun _ _ _ => rfl⟩

theorem depth (h : Restored declared s t) : t.depth = s.depth := by
  have hlength := congrArg List.length h.outer
  rw [List.length_map, List.length_map] at hlength
  rw [Scopes.depth, Scopes.depth, toList, toList, List.length_cons, List.length_cons, hlength]

/-- What is hidden stays hidden. -/
theorem shadows (h : Restored declared s t) {i : Nat} (hs : s.Shadows i name) : t.Shadows i name := by
  cases i with
  | zero => exact absurd hs not_shadows_zero
  | succ i =>
    rw [shadows_iff] at hs ⊢
    rw [toList, List.map_cons, h.inner, h.outer, List.take_succ_cons]
    obtain ⟨names, hnames, hn⟩ := hs
    rcases List.mem_cons.mp hnames with rfl | hnames
    · exact ⟨_, List.mem_cons_self, List.mem_append_right _ hn⟩
    · exact ⟨names, List.mem_cons_of_mem _ hnames, hn⟩

theorem trans (h : Restored declared s t) (h' : Restored later t u) :
    Restored (declared ++ later) s u where
  inner := by rw [h'.inner, h.inner, List.reverse_append, List.append_assoc]
  outer := h'.outer.trans h.outer
  hidden i name hs := (h'.hidden i name (h.shadows hs)).trans (h.hidden i name hs)

/-- A scope that has begun with a name ends with all that has been declared in it. -/
theorem exit (h : Restored declared (s.enterWith name value) t) : Restored [] s t.exit := by
  obtain ⟨inner, outer⟩ := t
  obtain ⟨scope, rest, rfl⟩ : ∃ scope rest, outer = scope :: rest := by
    have houter := h.outer
    cases outer with
    | nil => cases houter
    | cons scope rest => exact ⟨scope, rest, rfl⟩
  obtain ⟨hscope, hrest⟩ := List.cons.inj h.outer
  refine ⟨hscope, hrest, fun i other hs => h.hidden (i + 1) other ?_⟩
  obtain ⟨scope', hscope', hbinds⟩ := hs
  exact ⟨scope', List.mem_cons_of_mem _ hscope', hbinds⟩

end Restored

theorem restored_of_declare? (h : s.declare? name value = some t) : Restored [name] s t := by
  unfold declare? at h
  split at h <;> cases h
  refine ⟨rfl, rfl, fun i other hs => ?_⟩
  cases i with
  | zero => exact absurd hs not_shadows_zero
  | succ i => rfl

theorem map_names_updateFirst (scopes : List (Scope α)) :
    (updateFirst name value scopes).map Scope.names = scopes.map Scope.names := by
  induction scopes with
  | nil => rfl
  | cons scope rest ih =>
    rw [updateFirst]
    split
    · rw [List.map_cons, List.map_cons, Scope.names_replace]
    · rw [List.map_cons, List.map_cons, ih]

/-- A scope stays as it is if one further in takes the value. -/
theorem getElem?_updateFirst {scopes : List (Scope α)} {i : Nat}
    (h : ∃ scope ∈ scopes.take i, scope.binds name) :
    (updateFirst name value scopes)[i]? = scopes[i]? := by
  induction scopes generalizing i with
  | nil => rfl
  | cons scope rest ih =>
    obtain ⟨found, hfound, hbinds⟩ := h
    cases i with
    | zero => cases hfound
    | succ i =>
      rw [updateFirst]
      split
      · rfl
      · next hfree =>
        rcases List.mem_cons.mp hfound with rfl | hfound
        · exact absurd hbinds hfree
        · exact ih ⟨found, hfound, hbinds⟩

theorem restored_of_update? (h : s.update? name value = some t) : Restored [] s t := by
  have hlist := toList_of_update? h
  have hnames : t.toList.map Scope.names = s.toList.map Scope.names := by
    rw [hlist, map_names_updateFirst]
  obtain ⟨hinner, houter⟩ := List.cons.inj hnames
  refine ⟨hinner, houter, fun i other hs => ?_⟩
  by_cases hother : other = name
  · subst hother
    rw [valueAt?, valueAt?, hlist, getElem?_updateFirst hs]
  · have hagree : Agree {other} Eq s t := agree_of_update? h (Ne.symm hother)
    exact (hagree.valueAt?_eq rfl i).symm

/-- Scopes that have been restored, besides some names. -/
theorem frame_restored :
    Frame Set.univ fun s t : Scopes α => ∃ declared, Restored declared s t where
  refl s := ⟨[], .refl s⟩
  trans _ _ _ := fun ⟨_, h⟩ ⟨_, h'⟩ => ⟨_, h.trans h'⟩
  declare _ h := ⟨_, restored_of_declare? h⟩
  exit := fun ⟨_, h⟩ => ⟨[], h.exit⟩

end Scopes

/-! ## Runs -/

variable {σ : Type} [Writer σ]

/-- A statement that is completed adds the name that it declares, and one that fails adds none. -/
theorem Stmt.restored_run : ∀ (stmt : Stmt) (m : Machine σ),
    Ends (fun _ u => Scopes.Restored stmt.declared?.toList m.scopes u.scopes)
      (fun _ u => Scopes.Restored [] m.scopes u.scopes) (stmt.run m)
  | .declare ident e, m => by
    have heval : Leaves (Scopes.Restored []) Machine.scopes m (Running.eval e m) :=
      Running.leaves_eval .refl e
    apply Ends.bind (heval.mono (fun _ _ h => h) fun _ _ h => h)
    intro v u hu
    unfold Running.declare
    split
    · next h => exact .ok (hu.trans (Scopes.restored_of_declare? h))
    · exact .error hu
  | .assign ident e, m =>
    Stmt.leaves_run_assign .refl (fun _ _ _ => .trans) Scopes.restored_of_update?
  | .print e, m => Stmt.leaves_run_print .refl fun _ _ _ => .trans
  | .forEach ident e body, m => by
    have hbody : ∀ u : Machine σ, Leaves (fun s t => ∃ declared, Scopes.Restored declared s t)
        Machine.scopes u (body.run u) := fun _ =>
      Block.leaves_run Scopes.frame_restored (fun _ h => ⟨_, Scopes.restored_of_update? h⟩)
        fun _ _ => trivial
    exact Stmt.leaves_run_forEach .refl (fun _ _ _ => .trans) (fun ⟨_, h⟩ => h.exit) hbody

/-- A block adds the names that its completed statements declare. -/
theorem Block.restored_run (block : Block) (m : Machine σ) :
    Scopes.Restored ((completed Stmt.run block.toList m).filterMap Stmt.declared?) m.scopes
      (stateAfter block.run m).scopes := by
  rw [Block.run_eq_forM]
  let R (done : List Stmt) (m u : Machine σ) : Prop :=
    Scopes.Restored (done.filterMap Stmt.declared?) m.scopes u.scopes
  refine stateAfter_forM (R := R) (fun m => .refl m.scopes) ?_ ?_ block.toList m
  · intro stmt m e u h
    exact (Stmt.restored_run stmt m).of_error h
  · intro stmt m m' done u h hrest
    have hboth := ((Stmt.restored_run stmt m).of_ok h).trans hrest
    show Scopes.Restored _ m.scopes u.scopes
    rw [List.filterMap_cons]
    cases hdeclared : stmt.declared? <;> rw [hdeclared] at hboth <;> exact hboth

/-- Flushing the output leaves the scopes that the run has left. -/
theorem Block.scopes_execute (program : Block) (m : Machine σ) :
    (stateAfter program.execute m).scopes = (stateAfter program.run m).scopes := by
  unfold Block.execute
  change (stateAfter (EStateM.bind _ _) m).scopes = _
  unfold stateAfter EStateM.bind
  cases program.run m with
  | ok _ u =>
    show (stateAfter (Running.output Writer.flush) u).scopes = u.scopes
    unfold stateAfter Running.output
    cases Writer.flush u.sink <;> rfl
  | error e u => rfl

/-- Programs that run one after the other add nothing but names to the innermost scope. -/
theorem Machine.restored_afterAll (programs : List Block) (m : Machine σ) :
    ∃ declared, Scopes.Restored declared m.scopes (m.afterAll programs).scopes := by
  induction programs generalizing m with
  | nil => exact ⟨[], .refl _⟩
  | cons program rest ih =>
    have hprogram := Block.restored_run program m
    rw [← Block.scopes_execute] at hprogram
    obtain ⟨declared, hrest⟩ := ih (stateAfter program.execute m)
    exact ⟨_, hprogram.trans hrest⟩

/-- However a run ends, there are as many scopes after it as before. Those around the innermost have
the same names, and the innermost has those besides that have been declared by the statements that
the run has completed. What was hidden has the same value. Nothing else happens to the scopes where
the output is flushed, and a session has one scope after every program. -/
theorem scopes_restored (program : Block) (m : Machine σ) :
    let after := (stateAfter program.run m).scopes
    let declared := (completed Stmt.run program.toList m).filterMap Stmt.declared?
    after.depth = m.scopes.depth ∧
    after.outer.map Scope.names = m.scopes.outer.map Scope.names ∧
    after.inner.names = declared.reverse ++ m.scopes.inner.names ∧
    (∀ i name, m.scopes.Shadows i name → after.valueAt? i name = m.scopes.valueAt? i name) ∧
    (stateAfter program.execute m).scopes = after ∧
    ∀ (programs : List Block) (sink : σ), ((Machine.ofSink sink).afterAll programs).scopes.outer = [] := by
  intro after declared
  have hrestored : Scopes.Restored declared m.scopes after := Block.restored_run program m
  refine ⟨hrestored.depth, hrestored.outer, hrestored.inner, hrestored.hidden,
    Block.scopes_execute program m, fun programs sink => ?_⟩
  obtain ⟨_, hsession⟩ := Machine.restored_afterAll programs (Machine.ofSink sink)
  exact List.map_eq_nil_iff.mp hsession.outer

/-- Declares a variable, gives one of an outer scope another value, and is cut off in the inner one of
two loops. -/
def Block.cutOff : Block :=
  let ident (name : String) : Ident := ⟨name, ⟨1, 1⟩⟩
  let get (name : String) : Expr := .var (ident name)
  let inner : Block := .more (.declare (ident "c") (get "y")) (.one (.print (get "c")))
  let body : Block := .more (.declare (ident "b") (get "x"))
    (.one (.forEach (ident "y") (.list (.one (get "b"))) inner))
  .more (.declare (ident "a") (get "x")) (.more (.assign (ident "z") (get "a"))
    (.one (.forEach (ident "x") (.list (.more (.int 1) (.one (.int 2)))) body)))

/-- The inner loop prints to a sink that is full. -/
theorem scopes_restored_cutOff :
    let m : Machine Sink :=
      ⟨⟨[("x", .int 3)], [[("x", .bool true), ("z", .int 4)]]⟩, ⟨#[], some 0, false⟩⟩
    let after := stateAfter Block.cutOff.run m
    answerOf Block.cutOff.run m = .error (.output Sink.full) ∧ m.scopes.Shadows 1 "x" ∧
      after.scopes.depth = 2 ∧ after.scopes.inner.names = ["a", "x"] ∧
      after.scopes.outer.map Scope.names = [["x", "z"]] ∧
      after.scopes.valueAt? 1 "x" = some (.bool true) ∧ after.scopes.valueAt? 1 "z" = some (.int 3) := by
  intro m after
  obtain ⟨hdepth, houter, hinner, hhidden, -⟩ := scopes_restored Block.cutOff m
  have hshadows : m.scopes.Shadows 1 "x" := ⟨_, List.mem_cons_self, rfl⟩
  have hz : (stateAfter Block.cutOff.run m).scopes.valueAt? 1 "z" = some (.int 3) := by cbv
  refine ⟨by cbv, hshadows, hdepth, ?_, houter, hhidden 1 "x" hshadows, hz⟩
  rw [hinner]
  cbv

end ListScript
