import ListScript.Proofs.ReachableValues
import ListScript.Proofs.Relabelling

/-!
# The name of a loop variable

The variable of a loop can have any name that does not occur in the body. Inside the loop the two
names never reach past the scope that binds them, and with that scope both of them are gone.

* `renamed x y` : `y` in the place of the name `x`, for names, for a scope (`Scope.rename`) and where
  names stand (`Ident.rename`);
* `Scope.find?_rename`, `Scope.replace_rename` : a scope with the other name, if `y` is free there;
* `Scopes.Renamed x y n` : two stacks of which all scopes from that of the loop on have `y` in the
  place of `x`, and all scopes around it are the same;
* `Scopes.relabels_renamed`, `Scopes.exists_relabels` : such stacks go on to be such stacks;
* `loop_variable_renamed` : loops with either name run alike and are checked alike.
-/

namespace ListScript

variable {α : Type} {x y : String}

/-! ## One name in the place of another -/

/-- `y` in the place of the name `x`. -/
def renamed (x y name : String) : String := if name = x then y else name

@[simp] theorem renamed_self (x y : String) : renamed x y x = y := if_pos rfl

theorem renamed_of_ne {name : String} (h : name ≠ x) : renamed x y name = name := if_neg h

/-- No two names become one if neither of them is `y`. -/
theorem renamed_inj {a b : String} (ha : a ≠ y) (hb : b ≠ y) :
    renamed x y a = renamed x y b ↔ a = b := by
  unfold renamed
  split <;> split <;> grind

/-- The same name in the same place, but `y` for `x`. -/
def Ident.rename (x y : String) (ident : Ident) : Ident :=
  { ident with name := renamed x y ident.name }

@[simp] theorem Ident.name_rename (x y : String) (ident : Ident) :
    (ident.rename x y).name = renamed x y ident.name := rfl

/-! ## One scope -/

namespace Scope

/-- The scope with `y` in the place of the name `x`. -/
def rename (x y : String) (scope : Scope α) : Scope α :=
  scope.map fun entry => (renamed x y entry.1, entry.2)

variable {scope : Scope α} {name : String}

/-- Where `y` is free, every other name has the value that it had before. -/
theorem find?_rename (hfree : ∀ entry ∈ scope, entry.1 ≠ y) (hname : name ≠ y) :
    (scope.rename x y).find? (renamed x y name) = scope.find? name := by
  induction scope with
  | nil => rfl
  | cons entry scope ih =>
    obtain ⟨hentry, hrest⟩ := List.forall_mem_cons.mp hfree
    have hcons : rename x y (entry :: scope) =
        (renamed x y entry.1, entry.2) :: rename x y scope := rfl
    rw [hcons, find?_cons, find?_cons, ih hrest]
    simp only [renamed_inj hname hentry]

theorem binds_rename (hfree : ∀ entry ∈ scope, entry.1 ≠ y) (hname : name ≠ y) :
    (scope.rename x y).binds (renamed x y name) = scope.binds name := by
  rw [binds, binds, find?_rename hfree hname]

/-- It makes no difference whether the names or the values are replaced first. -/
theorem replace_rename (hfree : ∀ entry ∈ scope, entry.1 ≠ y) (hname : name ≠ y) (a : α) :
    (scope.rename x y).replace (renamed x y name) a = (scope.replace name a).rename x y := by
  rw [replace, rename, rename, replace, List.map_map, List.map_map]
  apply List.map_congr_left
  intro entry hentry
  have hsame := renamed_inj (x := x) (hfree entry hentry) hname
  by_cases h : entry.1 = name
  · simp [h]
  · simp [h, hsame]

/-- A new value makes no other names. -/
theorem free_replace (hfree : ∀ entry ∈ scope, entry.1 ≠ y) (name : String) (a : α) :
    ∀ entry ∈ scope.replace name a, entry.1 ≠ y := by
  rw [replace, List.forall_mem_map]
  intro entry hentry
  split
  · exact hfree entry hentry
  · exact hfree entry hentry

theorem binds_replace (scope : Scope α) (target name : String) (a : α) :
    (scope.replace target a).binds name = scope.binds name := by
  rw [binds, binds, find?_replace]
  split
  · exact Option.isSome_map
  · rfl

theorem binds_cons (h : scope.binds x = true) (entry : String × α) :
    Scope.binds (entry :: scope) x = true := by
  rw [binds, find?_cons]
  split
  · rfl
  · exact h

end Scope

/-! ## A scope inside others -/

namespace Scopes

variable {own : Scope α} {name : String} {a : α}

/-- A name has its value in the innermost scope, or else the one that it has outside. -/
theorem lookup?_cons (own : Scope α) (outer : Scopes α) (name : String) :
    Scopes.lookup? ⟨own, outer.toList⟩ name = (own.find? name <|> outer.lookup? name) := by
  rw [lookup?, lookup?, toList, List.findSome?_cons]
  cases own.find? name <;> rfl

/-- A name is updated in the innermost scope if that binds it, or else outside. -/
theorem update?_cons (own : Scope α) (outer : Scopes α) (name : String) (a : α) :
    Scopes.update? ⟨own, outer.toList⟩ name a =
      if own.binds name then some ⟨own.replace name a, outer.toList⟩
      else (outer.update? name a).map fun outer => ⟨own, outer.toList⟩ := by
  rw [update?, update?]
  by_cases hown : own.binds name = true
  · simp [hown]
  · by_cases hinner : outer.inner.binds name = true
    · simp [hown, hinner, toList, updateFirst]
    · by_cases houter : outer.outer.any (·.binds name) = true
      · simp [hown, hinner, houter, toList, updateFirst]
      · simp [hown, hinner, houter, toList]

/-- The scopes from that of a loop on have `y` in the place of `x`, and `y` is free in all of them.
The scope of the loop binds `x`. All scopes around it are the same. The number is that of the scopes
inside the loop's. -/
inductive Renamed (x y : String) : Nat → Scopes α → Scopes α → Prop
  | loop {own : Scope α} (outer : Scopes α) : own.binds x = true → (∀ entry ∈ own, entry.1 ≠ y) →
    Renamed x y 0 ⟨own, outer.toList⟩ ⟨own.rename x y, outer.toList⟩
  | inner {own : Scope α} {n : Nat} {s t : Scopes α} : (∀ entry ∈ own, entry.1 ≠ y) →
    Renamed x y n s t → Renamed x y (n + 1) ⟨own, s.toList⟩ ⟨own.rename x y, t.toList⟩

namespace Renamed

variable {n : Nat} {s t : Scopes α}

/-- A loop begins with its variable. -/
theorem enterWith (hne : x ≠ y) (s : Scopes α) (a : α) :
    Renamed x y 0 (s.enterWith x a) (s.enterWith y a) := by
  have hbinds : Scope.binds [(x, a)] x = true := by simp [Scope.binds, Scope.find?_cons]
  have hscope : Scope.rename x y [(x, a)] = [(y, a)] := by simp [Scope.rename]
  have hloop := Renamed.loop (y := y) s hbinds (List.forall_mem_singleton.mpr hne)
  rwa [hscope] at hloop

/-- When it ends, the two stacks are the same. -/
theorem exit_eq (h : Renamed x y 0 s t) : s.exit = t.exit := by
  cases h with
  | loop outer _ _ => rfl

/-- `x` is found in the scope of the loop at the latest, and so is `y` in its place. -/
theorem lookup? (h : Renamed x y n s t) (hname : name ≠ y) :
    t.lookup? (renamed x y name) = s.lookup? name := by
  induction h with
  | @loop own outer hx hfree =>
    rw [lookup?_cons, lookup?_cons, Scope.find?_rename hfree hname]
    by_cases h : name = x
    · obtain ⟨a, ha⟩ := Option.isSome_iff_exists.mp hx
      rw [h, ha]
      rfl
    · rw [renamed_of_ne h]
  | @inner own n s t hfree _ ih =>
    rw [lookup?_cons, lookup?_cons, Scope.find?_rename hfree hname, ih]

theorem declare? (h : Renamed x y n s t) (hname : name ≠ y) (a : α) :
    Option.Rel (Renamed x y n) (s.declare? name a) (t.declare? (renamed x y name) a) := by
  unfold Scopes.declare?
  cases h with
  | @loop own outer hx hfree =>
    rw [Scope.binds_rename hfree hname]
    split
    · exact .none
    · exact .some (.loop outer (Scope.binds_cons hx _) (List.forall_mem_cons.mpr ⟨hname, hfree⟩))
  | @inner own n s t hfree hrest =>
    rw [Scope.binds_rename hfree hname]
    split
    · exact .none
    · exact .some (.inner (List.forall_mem_cons.mpr ⟨hname, hfree⟩) hrest)

theorem update? (h : Renamed x y n s t) (hname : name ≠ y) (a : α) :
    Option.Rel (Renamed x y n) (s.update? name a) (t.update? (renamed x y name) a) := by
  induction h with
  | @loop own outer hx hfree =>
    rw [update?_cons, update?_cons, Scope.binds_rename hfree hname,
      Scope.replace_rename hfree hname]
    by_cases hown : own.binds name = true
    · rw [if_pos hown, if_pos hown]
      have hx' := (Scope.binds_replace own name x a).trans hx
      exact .some (.loop outer hx' (Scope.free_replace hfree name a))
    · -- the scope of the loop binds its own variable
      have hother : name ≠ x := fun h => hown (h ▸ hx)
      rw [if_neg hown, if_neg hown, renamed_of_ne hother]
      cases outer.update? name a with
      | none => exact .none
      | some outer => exact .some (.loop outer hx hfree)
  | @inner own n s t hfree hrest ih =>
    rw [update?_cons, update?_cons, Scope.binds_rename hfree hname,
      Scope.replace_rename hfree hname]
    by_cases hown : own.binds name = true
    · rw [if_pos hown, if_pos hown]
      exact .some (.inner (Scope.free_replace hfree name a) hrest)
    · rw [if_neg hown, if_neg hown]
      generalize s.update? name a = u, t.update? (renamed x y name) a = u' at ih
      cases ih with
      | none => exact .none
      | some hafter => exact .some (.inner hfree hafter)

end Renamed

/-- Such stacks go on to be such stacks. -/
theorem relabels_renamed (x y : String) :
    Scopes.Relabels (Ident.rename x y) {name | name ≠ y} (Renamed (α := α) x y) where
  lookup h _ hname := h.lookup? hname
  declare h _ a hname := h.declare? hname a
  update h _ a hname := h.update? hname a
  enter h _ _ hname := .inner (List.forall_mem_singleton.mpr hname) h
  exit h := by
    cases h with
    | inner _ h => exact h

/-- Stacks that are the same but for the scope of a loop, with `x` or `y` for its variable, go on to
be so. If both names are one, there is nothing to rename. -/
theorem exists_relabels (x y : String) : ∃ R : Nat → Scopes α → Scopes α → Prop,
    Scopes.Relabels (Ident.rename x y) {name | name ≠ y} R ∧
      (∀ (s : Scopes α) a, R 0 (s.enterWith x a) (s.enterWith y a)) ∧
      ∀ s t, R 0 s t → s.exit = t.exit := by
  by_cases hxy : x = y
  · subst hxy
    refine ⟨fun _ => Eq, relabels_of_name_eq ?_, fun _ _ => rfl, fun _ _ => congrArg Scopes.exit⟩
    intro ident
    rw [Ident.name_rename, renamed]
    split
    · next h => exact h.symm
    · rfl
  · exact ⟨Renamed x y, relabels_renamed x y, Renamed.enterWith hxy, fun _ _ => Renamed.exit_eq⟩

end Scopes

/-! ## Loops -/

variable {σ : Type} [Writer σ]

/-- A loop goes through the elements of a list, or fails before it begins. -/
theorem Stmt.run_forEach (ident : Ident) (items : Expr) (body : Block) (m : Machine σ) :
    (Stmt.forEach ident items body).run m =
      match items.eval m.scopes >>= fun list => narrow list.expectList with
      | .ok values => Running.forEach (fun v => Running.inScope ident.name v body.run) values m
      | .error err => .error err m := by
  rw [Stmt.run]
  show EStateM.bind _ _ m = _
  rw [EStateM.bind, Running.eval]
  cases items.eval m.scopes with
  | error err => rfl
  | ok list =>
    show EStateM.bind _ _ m = _
    rw [ok_bind, EStateM.bind]
    cases narrow list.expectList with
    | error err => rfl
    | ok values => rfl

/-- The body of a loop is checked once, if there is a list to go through. -/
theorem Stmt.check_forEach (ident : Ident) (items : Expr) (body : Block) (types : Scopes Ty) :
    (Stmt.forEach ident items body).check types =
      match items.infer types >>= Ty.element with
      | .ok element => Checking.inScope ident.name element body.check types
      | .error err => .error err types := by
  rw [Stmt.check]
  show EStateM.bind _ _ types = _
  rw [EStateM.bind, Checking.infer]
  cases items.infer types with
  | error err => rfl
  | ok list =>
    show EStateM.bind _ _ types = _
    rw [ok_bind, EStateM.bind]
    cases list.element with
    | error err => rfl
    | ok element => rfl

/-- The variable of a loop can have any name that does not occur in the body, whatever the scopes
around it bind. With `y` in the place of the variable `x`, wherever that is used, assigned, declared
or bound by another loop in the body, the loop runs as before: it writes the same, leaves the same
scopes, and succeeds or fails with the same error, but for `y` in the place of `x` as its name. An
error from before the body begins is the same. So it is with the check of the loop. -/
theorem loop_variable_renamed (x y : Ident) (items : Expr) {body : Block}
    (hy : y.name ∉ body.names) (m : Machine σ) (types : Scopes Ty) :
    let rename := Ident.rename x.name y.name
    let loop := Stmt.forEach x items body
    let loop' := Stmt.forEach y items (body.relabel rename)
    ((∀ values, items.eval m.scopes = .ok (.list values) →
        EndAlike (EvalError.IsRelabelled rename) Eq (loop.run m) (loop'.run m)) ∧
      ((∀ values, items.eval m.scopes ≠ .ok (.list values)) → loop.run m = loop'.run m)) ∧
    (∀ element, items.infer types = .ok (.list element) →
      EndAlike (TypeError.IsRelabelled rename) Eq (loop.check types) (loop'.check types)) ∧
    ((∀ element, items.infer types ≠ .ok (.list element)) →
      loop.check types = loop'.check types) := by
  intro rename loop loop'
  have hnames : ∀ name ∈ body.names, name ∈ {name | name ≠ y.name} := by
    rintro name hname rfl
    exact hy hname
  refine ⟨⟨?_, ?_⟩, ?_, ?_⟩
  · intro values hvalues
    obtain ⟨R, hR, henter, hexit⟩ := Scopes.exists_relabels (α := Value) x.name y.name
    rw [Stmt.run_forEach, Stmt.run_forEach, hvalues]
    apply Running.endAlike_forEach values _ rfl
    rintro v u _ rfl
    have hbegin : Machine.Related (R 0) Eq { u with scopes := u.scopes.enterWith x.name v }
        { u with scopes := u.scopes.enterWith y.name v } := ⟨henter u.scopes v, rfl⟩
    apply Running.endAlike_inScope (Block.endAlike_run_relabel hR Writer.alike_eq hnames hbegin)
    intro after after' h
    exact Machine.related_eq_iff.mp ⟨hexit _ _ h.scopes, h.sink⟩
  · intro hother
    rw [Stmt.run_forEach, Stmt.run_forEach]
    cases hvalues : items.eval m.scopes >>= fun list => narrow list.expectList with
    | error err => rfl
    | ok values =>
      obtain ⟨list, hlist, hvalues⟩ := bind_eq_ok.mp hvalues
      rw [narrow_eq_ok, Value.expectList_eq_ok] at hvalues
      subst hvalues
      exact absurd hlist (hother values)
  · intro element helement
    obtain ⟨R, hR, henter, hexit⟩ := Scopes.exists_relabels (α := Ty) x.name y.name
    rw [Stmt.check_forEach, Stmt.check_forEach, helement]
    have hbody := Block.endAlike_check_relabel hR hnames (henter types element)
    exact Checking.endAlike_inScope hbody hexit
  · intro hother
    rw [Stmt.check_forEach, Stmt.check_forEach]
    cases helement : items.infer types >>= Ty.element with
    | error err => rfl
    | ok element =>
      obtain ⟨list, hlist, helement⟩ := bind_eq_ok.mp helement
      rw [Ty.element_eq_ok] at helement
      subst helement
      exact absurd hlist (hother element)

/-- A block for a loop with the variable `x`: it is assigned and printed, another loop has it for its
variable too, and then it is declared once more. -/
def Block.overworked : Block :=
  let ident (name : String) : Ident := ⟨name, ⟨1, 1⟩⟩
  let get (name : String) : Expr := .var (ident name)
  .more (.assign (ident "x") (.binary .add (get "x") (get "z")))
    (.more (.forEach (ident "x") (.list (.one (get "x"))) (.one (.print (get "x"))))
      (.one (.declare (ident "x") (.int 3))))

/-- Both names stand for something else outside the loop. With either of them it prints one line and
fails at the declaration. -/
theorem loop_variable_renamed_overworked :
    let x : Ident := ⟨"x", ⟨1, 5⟩⟩
    let y : Ident := ⟨"y", ⟨1, 5⟩⟩
    let rename := Ident.rename "x" "y"
    let items : Expr := .list (.one (.int 1))
    let loop := Stmt.forEach x items Block.overworked
    let loop' := Stmt.forEach y items (Block.overworked.relabel rename)
    let m : Machine Sink :=
      ⟨⟨[("x", .bool true)], [[("z", .int 5), ("y", .int 7)]]⟩, Sink.unlimited⟩
    let types : Scopes Ty := ⟨[("x", .bool)], [[("z", .int), ("y", .int)]]⟩
    "y" ∉ Block.overworked.names ∧
      items.eval m.scopes = .ok (.list [.int 1]) ∧ items.infer types = .ok (.list .int) ∧
      EndAlike (EvalError.IsRelabelled rename) Eq (loop.run m) (loop'.run m) ∧
      EndAlike (TypeError.IsRelabelled rename) Eq (loop.check types) (loop'.check types) ∧
      ∃ u, loop.run m = .error (.alreadyDeclared "x" ⟨1, 1⟩) u ∧
        loop'.run m = .error (.alreadyDeclared "y" ⟨1, 1⟩) u ∧ u.sink.text = "6\n" := by
  intro x y rename items loop loop' m types
  have hy : "y" ∉ Block.overworked.names := by decide
  obtain ⟨⟨hrun, -⟩, hcheck, -⟩ := loop_variable_renamed x y items hy m types
  refine ⟨hy, rfl, rfl, hrun [.int 1] rfl, hcheck .int rfl, _, rfl, ?_, ?_⟩
  · rfl
  · cbv

end ListScript
