import ListScript.Proofs.ScopeFrames
import ListScript.Proofs.TypingRules

/-!
# The scopes that a check leaves behind

A check that fails leaves the scopes as they were before the statement that does not fit, also where
that statement has been given up inside loops. So a check does nothing but declare names, and only its
declarations outside of loops do.

* `Declares s stmts entries` : the entries that the declarations among some statements add to `s`
  (`Declares.find?_iff`);
* `Stmt.leaves_check_of_declared?_eq_none`, `Stmt.eq_of_check_error` : statements that declare nothing,
  and statements that fail, leave the scopes as they are;
* `Block.declares_check` : a check adds the entries of the statements before the first that fails;
* `Scopes.afterChecks` : checks one after the other;
* `checking_atomic` : all of it for the global scope.
-/

namespace ListScript

/-! ## Declarations -/

/-- The entries that the declarations among some statements add to the innermost scope, in order. Each
declares a name that is free there, with the type that its value has at that point. -/
inductive Declares : Scopes Ty → List Stmt → Scope Ty → Prop
  | nil {s : Scopes Ty} : Declares s [] []
  | declare {s : Scopes Ty} {ident : Ident} {e : Expr} {T : Ty} {rest : List Stmt} {entries : Scope Ty} :
      e.infer s = .ok T → s.inner.binds ident.name = false →
      Declares ⟨(ident.name, T) :: s.inner, s.outer⟩ rest entries →
      Declares s (.declare ident e :: rest) ((ident.name, T) :: entries)
  | other {s : Scopes Ty} {stmt : Stmt} {rest : List Stmt} {entries : Scope Ty} :
      stmt.declared? = none → Declares s rest entries → Declares s (stmt :: rest) entries

/-- A name is bound to a type if it was, or if it has been declared with it. -/
theorem Declares.find?_iff {s : Scopes Ty} {stmts : List Stmt} {entries : Scope Ty} {name : String}
    {T : Ty} (h : Declares s stmts entries) :
    Scope.find? (entries.reverse ++ s.inner) name = some T ↔
      (name, T) ∈ entries ∨ s.inner.find? name = some T := by
  induction h with
  | nil => simp
  | other _ _ ih => exact ih
  | @declare s ident _ U _ entries _ hfree _ ih =>
    rw [List.reverse_cons, List.append_assoc, List.singleton_append, ih, Scope.find?_cons,
      List.mem_cons, Prod.mk.injEq]
    by_cases hname : name = ident.name
    · have hnone : s.inner.find? ident.name = none :=
        Option.isNone_iff_eq_none.1 (Option.isSome_eq_false_iff.1 hfree)
      simp [hname, hnone, eq_comm, or_comm]
    · simp [hname]

/-! ## Statements -/

/-- The scopes around the innermost stay as they are. -/
theorem Scopes.frame_outer : Scopes.Frame Set.univ fun s t : Scopes Ty => t.outer = s.outer where
  refl _ := rfl
  trans _ _ _ h h' := h'.trans h
  declare _ h := by
    unfold declare? at h
    split at h <;> cases h
    rfl
  exit h := by rw [exit, h]; rfl

/-- A statement that declares nothing leaves the scopes as they are, whether it fits or not. -/
theorem Stmt.leaves_check_of_declared?_eq_none {stmt : Stmt} (h : stmt.declared? = none)
    (s : Scopes Ty) : Leaves Eq id s (stmt.check s) := by
  cases stmt with
  | declare ident e => cases h
  | assign ident e => exact Stmt.leaves_check_assign .refl fun _ _ _ => .trans
  | print e => exact Ends.discard (Checking.leaves_infer .refl e)
  | forEach ident items body =>
    have hbody : ∀ u, Leaves (fun s t : Scopes Ty => t.outer = s.outer) id u (body.check u) := fun _ =>
      Block.leaves_check Scopes.frame_outer fun _ _ => trivial
    refine Stmt.leaves_check_forEach .refl (fun _ _ _ => .trans) ?_ hbody
    intro s t T ht
    rw [Scopes.exit, ht]
    rfl

/-- A statement that does not fit leaves the scopes as they are. -/
theorem Stmt.eq_of_check_error {stmt : Stmt} {s t : Scopes Ty} {e : TypeError}
    (h : stmt.check s = .error e t) : t = s := by
  cases stmt with
  | declare ident value =>
    have hinfer : Leaves Eq id s (Checking.infer value s) := Checking.leaves_infer .refl value
    rcases step_bind_eq_error.1 h with h | ⟨T, u, h, hdeclare⟩
    · exact (hinfer.of_error h).symm
    · obtain rfl : s = u := hinfer.of_ok h
      unfold Checking.declare at hdeclare
      split at hdeclare <;> cases hdeclare
      rfl
  | assign | print | forEach => exact ((leaves_check_of_declared?_eq_none rfl s).of_error h).symm

/-! ## Programs -/

/-- A check adds the entries of the statements before the first that fails. -/
theorem Block.declares_check (block : Block) (s : Scopes Ty) :
    ∃ entries, Declares s (completed Stmt.check block.toList s) entries ∧
      stateAfter block.check s = ⟨entries.reverse ++ s.inner, s.outer⟩ := by
  rw [Block.check_eq_forM]
  let R (done : List Stmt) (s t : Scopes Ty) : Prop :=
    ∃ entries, Declares s done entries ∧ t = ⟨entries.reverse ++ s.inner, s.outer⟩
  refine stateAfter_forM (R := R) (fun s => ⟨[], .nil, rfl⟩) ?_ ?_ block.toList s
  · intro stmt s e t h
    exact ⟨[], .nil, Stmt.eq_of_check_error h⟩
  · rintro stmt s t done u h ⟨entries, hentries, rfl⟩
    cases hdeclared : stmt.declared? with
    | none =>
      obtain rfl : s = t := (Stmt.leaves_check_of_declared?_eq_none hdeclared s).of_ok h
      exact ⟨entries, .other hdeclared hentries, rfl⟩
    | some name =>
      cases stmt with
      | assign | print | forEach => cases hdeclared
      | declare ident e =>
        obtain ⟨T, s', hinfer, hdeclare⟩ := step_bind_eq_ok.1 h
        obtain ⟨he, rfl⟩ := Checking.infer_eq_ok_iff.1 hinfer
        obtain ⟨hfree, rfl⟩ := Checking.declare_eq_ok_iff.1 hdeclare
        refine ⟨(ident.name, T) :: entries, .declare he.infer_eq hfree hentries, ?_⟩
        rw [List.reverse_cons, List.append_assoc, List.singleton_append]

/-- The scopes after the checks of some programs, one after the other, whether they fail or not. -/
def Scopes.afterChecks (s : Scopes Ty) : List Block → Scopes Ty
  | [] => s
  | program :: rest => (stateAfter program.check s).afterChecks rest

/-- Checks leave one global scope behind in which no name has another type than before. -/
theorem Scopes.exists_afterChecks (programs : List Block) (globals : Scope Ty) :
    ∃ later, afterChecks ⟨globals, []⟩ programs = ⟨later, []⟩ ∧
      ∀ name T, globals.find? name = some T → later.find? name = some T := by
  induction programs generalizing globals with
  | nil => exact ⟨globals, rfl, fun _ _ h => h⟩
  | cons program rest ih =>
    obtain ⟨entries, hentries, hafter⟩ := program.declares_check ⟨globals, []⟩
    obtain ⟨later, hlater, hkept⟩ := ih (entries.reverse ++ globals)
    refine ⟨later, by rw [afterChecks, hafter, hlater], fun name T h => ?_⟩
    exact hkept name T (hentries.find?_iff.2 (.inr h))

/-- A check adds to a global scope the names of the declarations among the statements before the first
that fails, with their types, and changes nothing else. Statements that declare nothing leave all
scopes as they are, and so do those that fail. So no name gets another type once it has one, whatever
is checked later. -/
theorem checking_atomic (globals : Scope Ty) (program : Block) :
    (∃ entries,
      Declares ⟨globals, []⟩ (completed Stmt.check program.toList ⟨globals, []⟩) entries ∧
      stateAfter program.check ⟨globals, []⟩ = ⟨entries.reverse ++ globals, []⟩ ∧
      ∀ name T, Scope.find? (entries.reverse ++ globals) name = some T ↔
        (name, T) ∈ entries ∨ globals.find? name = some T) ∧
    (∀ (stmt : Stmt) (s : Scopes Ty), stmt.declared? = none → stateAfter stmt.check s = s) ∧
    (∀ (stmt : Stmt) (s t : Scopes Ty) (e : TypeError), stmt.check s = .error e t → t = s) ∧
    ∀ programs : List Block, ∃ later, Scopes.afterChecks ⟨globals, []⟩ programs = ⟨later, []⟩ ∧
      ∀ name T, globals.find? name = some T → later.find? name = some T := by
  obtain ⟨entries, hentries, hafter⟩ := program.declares_check ⟨globals, []⟩
  refine ⟨⟨entries, hentries, hafter, fun name T => hentries.find?_iff⟩, ?_, ?_, ?_⟩
  · intro stmt s h
    exact (Stmt.leaves_check_of_declared?_eq_none h s).stateAfter.symm
  · exact fun stmt s t e h => Stmt.eq_of_check_error h
  · exact fun programs => Scopes.exists_afterChecks programs globals

/-- Declares a name, and again in a loop inside a loop, in which a truth value is added. -/
def Block.misfit : Block :=
  let ident (name : String) : Ident := ⟨name, ⟨1, 1⟩⟩
  let get (name : String) : Expr := .var (ident name)
  let inner : Block := .more (.declare (ident "b") (get "z"))
    (.one (.print (.binary .add (get "x") (get "b"))))
  let body : Block := .one (.forEach (ident "z") (.list (.one (.bool true))) inner)
  .more (.declare (ident "a") (.list (.one (get "x")))) (.more (.forEach (ident "y") (get "a") body)
    (.one (.declare (ident "c") (get "a"))))

/-- The first declaration is left, and those in the loops and after them are not. The same check once
more, which fails at once, leaves the type of `x` as well. -/
theorem checking_atomic_misfit :
    let s : Scopes Ty := ⟨[("x", .int)], []⟩
    let entries : Scope Ty := [("a", .list .int)]
    answerOf Block.misfit.check s = .error (.mismatch "int" "bool") ∧
      Declares s (completed Stmt.check Block.misfit.toList s) entries ∧
      stateAfter Block.misfit.check s = ⟨[("a", .list .int), ("x", .int)], []⟩ ∧
      ∃ later, s.afterChecks [.misfit, .misfit] = ⟨later, []⟩ ∧ later.find? "x" = some .int := by
  intro s entries
  obtain ⟨⟨found, hfound, hafter, -⟩, -, -, hlater⟩ := checking_atomic s.inner Block.misfit
  have hstate : stateAfter Block.misfit.check s = ⟨[("a", .list .int), ("x", .int)], []⟩ := rfl
  have hentries : found.reverse ++ s.inner = entries.reverse ++ s.inner :=
    congrArg Scopes.inner (hafter.symm.trans hstate)
  obtain rfl : found = entries := List.reverse_injective (List.append_cancel_right hentries)
  obtain ⟨later, hchecks, hkept⟩ := hlater [.misfit, .misfit]
  exact ⟨rfl, hfound, hstate, later, hchecks, hkept "x" .int rfl⟩

end ListScript
