import ListScript.Proofs.RestoredScopes

/-!
# A scope is a bracket

Scopes are worked on by operations in any order: scopes begin and end, names are declared, looked up
and updated. What is left of the operations between a scope's begin and its end are their updates of
names that none of the scopes begun since have hidden.

* `Scopes.Op`, `Scopes.perform`, `Scopes.performAll` : operations, and the scopes after them;
* `Scopes.heightAfter` : how many scopes there are after operations (`depth_performAll`);
* `Scopes.BindsAt`, `Scopes.Declared` : whether a scope, counted from outside, binds a name, and whether
  operations have declared the name in it and have not ended it since (`bindsAt_performAll`);
* `Scopes.Balanced` : operations that end the scopes that they begin and no others;
* `Scopes.Reaches`, `Scopes.LastUpdate` : whether an update after some operations goes further out than
  the scopes begun by them, and the last update that does;
* `Scopes.Around s ops b` : `b` is what operations have made of the scopes `s` around them
  (`exists_around`);
* `Scopes.scope_is_bracket` : all of it, and what a look-up finds after any operations.
-/

namespace ListScript

namespace Scopes

variable {α : Type}

/-! ## Operations -/

/-- What can be done with scopes. -/
inductive Op (α : Type) where
  | enter
  | exit
  | declare (name : String) (value : α)
  | lookup (name : String)
  | update (name : String) (value : α)

/-- The scopes after an operation. One that fails leaves them as they are, and so does a look-up. -/
def perform (s : Scopes α) : Op α → Scopes α
  | .enter => s.enter
  | .exit => s.exit
  | .declare name value => (s.declare? name value).getD s
  | .lookup _ => s
  | .update name value => (s.update? name value).getD s

/-- The scopes after operations, one after the other. -/
def performAll (s : Scopes α) (ops : List (Op α)) : Scopes α := ops.foldl perform s

@[simp] theorem performAll_append (s : Scopes α) (ops ops' : List (Op α)) :
    s.performAll (ops ++ ops') = (s.performAll ops).performAll ops' := List.foldl_append

/-- Whether a scope begins. -/
def Op.isEnter : Op α → Bool
  | .enter => true
  | _ => false

/-- Whether a scope ends. -/
def Op.isExit : Op α → Bool
  | .exit => true
  | _ => false

/-- How many scopes begin. -/
def enters (ops : List (Op α)) : Nat := ops.countP Op.isEnter

/-- How many scopes end. -/
def exits (ops : List (Op α)) : Nat := ops.countP Op.isExit

/-- The operations never end more scopes than they have begun, and they end all that they begin. -/
structure Balanced (ops : List (Op α)) : Prop where
  exits_le : ∀ done, done <+: ops → exits done ≤ enters done
  exits_eq : exits ops = enters ops

instance (ops : List (Op α)) : Decidable (Balanced ops) :=
  decidable_of_iff ((∀ done ∈ ops.inits, exits done ≤ enters done) ∧ exits ops = enters ops)
    ⟨fun ⟨hle, heq⟩ => ⟨fun done hdone => hle done ((List.mem_inits done ops).2 hdone), heq⟩,
      fun ⟨hle, heq⟩ => ⟨fun done hdone => hle done ((List.mem_inits done ops).1 hdone), heq⟩⟩

/-- How many scopes there are after an operation if there are `d` before it. -/
def Op.height (d : Nat) : Op α → Nat
  | .enter => d + 1
  | .exit => max 1 (d - 1)
  | _ => d

/-- How many scopes there are after operations if there are `d` before them. -/
def heightAfter (d : Nat) (ops : List (Op α)) : Nat := ops.foldl Op.height d

@[simp] theorem heightAfter_append (d : Nat) (ops ops' : List (Op α)) :
    heightAfter d (ops ++ ops') = heightAfter (heightAfter d ops) ops' := List.foldl_append

variable {s t b : Scopes α} {name other : String} {value : α} {op : Op α} {ops : List (Op α)}
  {d i k : Nat}

/-! ## What one operation does -/

theorem toList_exit (h : 1 < s.depth) : s.toList = s.inner :: s.exit.toList := by
  obtain ⟨inner, outer⟩ := s
  cases outer with
  | nil => exact absurd h (Nat.lt_irrefl 1)
  | cons => rfl

theorem exit_of_depth_le (h : s.depth ≤ 1) : s.exit = s := by
  obtain ⟨inner, outer⟩ := s
  cases outer with
  | nil => rfl
  | cons => exact absurd h (by simp [depth, toList])

/-- Declaring a name touches the innermost scope alone, which binds that name afterwards. -/
theorem perform_declare (s : Scopes α) (name : String) (value : α) :
    ∃ inner, s.perform (.declare name value) = ⟨inner, s.outer⟩ ∧
      ∀ other, inner.binds other = true ↔ s.inner.binds other = true ∨ other = name := by
  rw [perform, declare?]
  by_cases hbinds : s.inner.binds name = true
  · rw [if_pos hbinds]
    refine ⟨s.inner, rfl, fun other => ⟨Or.inl, ?_⟩⟩
    rintro (h | rfl)
    · exact h
    · exact hbinds
  · rw [if_neg hbinds]
    refine ⟨(name, value) :: s.inner, rfl, fun other => ?_⟩
    rw [Scope.binds_iff, Scope.binds_iff, Scope.names, List.map_cons, List.mem_cons, or_comm]
    rfl

theorem updateFirst_of_free {scopes : List (Scope α)} (h : ¬ scopes.any (·.binds name) = true) :
    updateFirst name value scopes = scopes := by
  induction scopes with
  | nil => rfl
  | cons scope rest ih =>
    rw [List.any_cons, Bool.or_eq_true, not_or] at h
    rw [updateFirst, if_neg h.1, ih h.2]

/-- Updating a name replaces its value in the first scope that binds it, if there is one. -/
theorem toList_perform_update (s : Scopes α) (name : String) (value : α) :
    (s.perform (.update name value)).toList = updateFirst name value s.toList := by
  rw [perform]
  by_cases h : s.toList.any (·.binds name) = true
  · obtain ⟨t, ht⟩ := exists_update? value h
    rw [ht]
    exact toList_of_update? ht
  · rw [update?_eq_none h, updateFirst_of_free h]
    rfl

theorem restored_perform_update (s : Scopes α) (name : String) (value : α) :
    Restored [] s (s.perform (.update name value)) := by
  rw [perform]
  cases h : s.update? name value with
  | none => exact .refl s
  | some t => exact restored_of_update? h

theorem valueAt?_perform_update_of_ne (h : other ≠ name) (i : Nat) :
    (s.perform (.update name value)).valueAt? i other = s.valueAt? i other := by
  rw [perform]
  cases ht : s.update? name value with
  | none => rfl
  | some t =>
    have hagree : Agree {other} Eq s t := agree_of_update? ht (Ne.symm h)
    exact (hagree.valueAt?_eq rfl i).symm

theorem depth_perform (s : Scopes α) (op : Op α) : (s.perform op).depth = op.height s.depth := by
  cases op with
  | enter => rfl
  | exit =>
    show s.exit.depth = max 1 (s.depth - 1)
    have hpos := s.depth_pos
    by_cases h : 1 < s.depth
    · have hlength := congrArg List.length (toList_exit h)
      rw [List.length_cons] at hlength
      unfold depth at *
      omega
    · rw [exit_of_depth_le (by omega)]
      omega
  | declare name value =>
    obtain ⟨inner, hperform, -⟩ := perform_declare s name value
    rw [hperform]
    rfl
  | lookup => rfl
  | update name value => exact (restored_perform_update s name value).depth

theorem depth_performAll (s : Scopes α) (ops : List (Op α)) :
    (s.performAll ops).depth = heightAfter s.depth ops := by
  induction ops generalizing s with
  | nil => rfl
  | cons op ops ih =>
    show ((s.perform op).performAll ops).depth = heightAfter (op.height s.depth) ops
    rw [ih, depth_perform]

/-- A look-up finds the value in the innermost scope that binds the name. -/
theorem lookup?_eq_some_iff : s.lookup? name = some value ↔
    ∃ i, s.valueAt? i name = some value ∧ ¬ s.Shadows i name := by
  unfold lookup? valueAt? Shadows
  induction s.toList with
  | nil => simp
  | cons scope rest ih =>
    rw [List.findSome?_cons]
    cases hfind : scope.find? name with
    | none =>
      have hfree : scope.binds name = false := by rw [Scope.binds, hfind]; rfl
      rw [ih]
      constructor
      · rintro ⟨i, hvalue, hshadows⟩
        refine ⟨i + 1, hvalue, ?_⟩
        rintro ⟨found, hfound, hbinds⟩
        rcases List.mem_cons.mp hfound with rfl | hfound
        · rw [hfree] at hbinds; cases hbinds
        · exact hshadows ⟨found, hfound, hbinds⟩
      · rintro ⟨i, hvalue, hshadows⟩
        cases i with
        | zero => rw [List.getElem?_cons_zero, Option.bind_some, hfind] at hvalue; cases hvalue
        | succ i =>
          refine ⟨i, hvalue, ?_⟩
          rintro ⟨found, hfound, hbinds⟩
          exact hshadows ⟨found, List.mem_cons_of_mem _ hfound, hbinds⟩
    | some found =>
      constructor
      · intro h
        cases h
        refine ⟨0, hfind, ?_⟩
        rintro ⟨found', hmem, -⟩
        exact List.not_mem_nil hmem
      · rintro ⟨i, hvalue, hshadows⟩
        cases i with
        | zero => rw [List.getElem?_cons_zero, Option.bind_some, hfind] at hvalue; exact hvalue
        | succ i =>
          have hbinds : scope.binds name = true := by rw [Scope.binds, hfind]; rfl
          exact absurd ⟨scope, List.mem_cons_self, hbinds⟩ hshadows

theorem lookup?_eq_none_iff : s.lookup? name = none ↔ ∀ i, s.valueAt? i name = none := by
  simp only [lookup?, valueAt?, List.findSome?_eq_none_iff, Option.bind_eq_none_iff,
    List.mem_iff_getElem?, forall_exists_index]
  exact forall_comm

/-! ## Which scope binds which name -/

/-- The `k`th scope from outside binds the name; the global scope is the first. -/
def BindsAt (s : Scopes α) (k : Nat) (name : String) : Prop :=
  ∃ i, i + k = s.depth ∧ (s.valueAt? i name).isSome

/-- There are never fewer than `k` scopes while the operations are performed, if there are `d` before
them. -/
def Stays (d k : Nat) (ops : List (Op α)) : Prop := ∀ done, done <+: ops → k ≤ heightAfter d done

/-- One of the operations, before which there are `d` scopes, declares the name in the `k`th scope from
outside, and those that follow do not end that scope. -/
def Declared (d : Nat) (ops : List (Op α)) (k : Nat) (name : String) : Prop :=
  ∃ done value later, ops = done ++ .declare name value :: later ∧ k = heightAfter d done ∧
    Stays k k later

theorem stays_nil : Stays d k ([] : List (Op α)) ↔ k ≤ d := by
  unfold Stays
  simp only [List.prefix_nil, forall_eq]
  rfl

theorem stays_concat : Stays d k (ops ++ [op]) ↔ Stays d k ops ∧ k ≤ heightAfter d (ops ++ [op]) := by
  unfold Stays
  simp only [List.prefix_concat_iff, or_imp, forall_and, forall_eq]
  rw [and_comm]

/-- What has been declared before an operation stands if the operation leaves its scope, and a
declaration adds its name. -/
theorem declared_concat : Declared d (ops ++ [op]) k name ↔
    (Declared d ops k name ∧ k ≤ heightAfter d (ops ++ [op])) ∨
      ∃ value, op = .declare name value ∧ k = heightAfter d ops := by
  constructor
  · rintro ⟨done, value, later, hops, rfl, hstays⟩
    rcases List.eq_nil_or_concat later with rfl | ⟨later, last, rfl⟩
    · obtain ⟨rfl, hop⟩ := List.append_inj' hops rfl
      exact .inr ⟨value, (List.cons.inj hop).1, rfl⟩
    · rw [List.concat_eq_append, ← List.cons_append, ← List.append_assoc] at hops
      obtain ⟨rfl, hop⟩ := List.append_inj' hops rfl
      cases (List.cons.inj hop).1
      rw [List.concat_eq_append, stays_concat] at hstays
      refine .inl ⟨⟨done, value, later, rfl, rfl, hstays.1⟩, ?_⟩
      rw [List.append_assoc, heightAfter_append]
      exact hstays.2
  · rintro (⟨⟨done, value, later, rfl, rfl, hstays⟩, hle⟩ | ⟨value, rfl, rfl⟩)
    · refine ⟨done, value, later ++ [op], by simp, rfl, stays_concat.2 ⟨hstays, ?_⟩⟩
      rw [List.append_assoc, heightAfter_append] at hle
      exact hle
    · exact ⟨ops, value, [], rfl, rfl, stays_nil.2 le_rfl⟩

theorem isSome_valueAt?_iff : (s.valueAt? i name).isSome ↔
    ∃ scope, s.toList[i]? = some scope ∧ scope.binds name = true := by
  unfold valueAt? Scope.binds
  cases s.toList[i]? <;> simp

/-- Scopes with the same names bind the same names. -/
theorem isSome_valueAt?_congr (h : t.toList.map Scope.names = s.toList.map Scope.names) :
    (t.valueAt? i name).isSome = (s.valueAt? i name).isSome := by
  have hnames (u : Scopes α) : (u.valueAt? i name).isSome ↔
      ∃ names, (u.toList.map Scope.names)[i]? = some names ∧ name ∈ names := by
    rw [isSome_valueAt?_iff]
    simp [Scope.binds_iff]
  rw [Bool.eq_iff_iff, hnames, hnames, h]

theorem Restored.names (h : Restored [] s t) :
    t.toList.map Scope.names = s.toList.map Scope.names := by
  rw [toList, toList, List.map_cons, List.map_cons, h.inner, h.outer]
  rfl

theorem bindsAt_enter : s.enter.BindsAt k name ↔ s.BindsAt k name := by
  constructor
  · rintro ⟨i, hi, hsome⟩
    cases i with
    | zero => cases hsome
    | succ i =>
      rw [depth_enter] at hi
      exact ⟨i, by omega, hsome⟩
  · rintro ⟨i, hi, hsome⟩
    exact ⟨i + 1, by rw [depth_enter]; omega, hsome⟩

theorem BindsAt.le (h : s.BindsAt k name) : k ≤ s.depth := by
  obtain ⟨i, hi, -⟩ := h
  omega

theorem bindsAt_exit : s.exit.BindsAt k name ↔ s.BindsAt k name ∧ k ≤ s.exit.depth := by
  by_cases h : 1 < s.depth
  · have hlist := toList_exit h
    have hdepth : s.depth = s.exit.depth + 1 := congrArg List.length hlist
    have hvalue (i : Nat) : s.valueAt? (i + 1) name = s.exit.valueAt? i name := by
      rw [valueAt?, hlist]
      rfl
    constructor
    · rintro ⟨i, hi, hsome⟩
      exact ⟨⟨i + 1, by omega, by rw [hvalue]; exact hsome⟩, by omega⟩
    · rintro ⟨⟨i, hi, hsome⟩, hk⟩
      obtain ⟨j, rfl⟩ : ∃ j, i = j + 1 := ⟨i - 1, by omega⟩
      rw [hvalue] at hsome
      exact ⟨j, by omega, hsome⟩
  · rw [exit_of_depth_le (by omega)]
    exact ⟨fun h => ⟨h, h.le⟩, And.left⟩

theorem bindsAt_declare : (s.perform (.declare name value)).BindsAt k other ↔
    s.BindsAt k other ∨ other = name ∧ k = s.depth := by
  obtain ⟨inner, hperform, hinner⟩ := perform_declare s name value
  have hzero : (valueAt? ⟨inner, s.outer⟩ 0 other).isSome ↔
      (s.valueAt? 0 other).isSome ∨ other = name := hinner other
  rw [hperform]
  constructor
  · rintro ⟨i, hi, hsome⟩
    cases i with
    | zero =>
      rcases hzero.1 hsome with hs | hname
      · exact .inl ⟨0, hi, hs⟩
      · exact .inr ⟨hname, (Nat.zero_add k).symm.trans hi⟩
    | succ i => exact .inl ⟨i + 1, hi, hsome⟩
  · rintro (⟨i, hi, hsome⟩ | ⟨hname, rfl⟩)
    · cases i with
      | zero => exact ⟨0, hi, hzero.2 (.inl hsome)⟩
      | succ i => exact ⟨i + 1, hi, hsome⟩
    · exact ⟨0, Nat.zero_add _, hzero.2 (.inr hname)⟩

/-- After an operation the scopes that are left bind what they bound, and what has been declared. -/
theorem bindsAt_perform : (s.perform op).BindsAt k name ↔
    (s.BindsAt k name ∧ k ≤ (s.perform op).depth) ∨
      ∃ value, op = .declare name value ∧ k = s.depth := by
  have hkept (ht : (s.perform op).BindsAt k name ↔ s.BindsAt k name)
      (hop : ∀ value, op ≠ .declare name value) : (s.perform op).BindsAt k name ↔
      (s.BindsAt k name ∧ k ≤ (s.perform op).depth) ∨
        ∃ value, op = .declare name value ∧ k = s.depth :=
    ⟨fun h => .inl ⟨ht.1 h, h.le⟩,
      fun h => h.elim (fun h => ht.2 h.1) fun ⟨value, h, _⟩ => absurd h (hop value)⟩
  cases op with
  | enter => exact hkept bindsAt_enter (fun _ => nofun)
  | exit =>
    refine bindsAt_exit.trans ⟨.inl, ?_⟩
    rintro (h | ⟨_, h, _⟩)
    · exact h
    · cases h
  | declare declared value =>
    rw [bindsAt_declare]
    constructor
    · rintro (h | ⟨rfl, rfl⟩)
      · exact .inl ⟨h, by rw [depth_perform]; exact h.le⟩
      · exact .inr ⟨value, rfl, rfl⟩
    · rintro (⟨h, -⟩ | ⟨_, h, rfl⟩)
      · exact .inl h
      · cases h; exact .inr ⟨rfl, rfl⟩
  | lookup => exact hkept .rfl (fun _ => nofun)
  | update updated value =>
    refine hkept ?_ (fun _ => nofun)
    have hrestored := restored_perform_update s updated value
    unfold BindsAt
    simp only [hrestored.depth, isSome_valueAt?_congr hrestored.names]

/-- After operations a scope binds what they have declared in it, and, if it was there all the time,
what it bound before. -/
theorem bindsAt_performAll : (s.performAll ops).BindsAt k name ↔
    Declared s.depth ops k name ∨ (s.BindsAt k name ∧ Stays s.depth k ops) := by
  induction ops using List.reverseRecOn with
  | nil =>
    have hnone : ¬ Declared s.depth ([] : List (Op α)) k name := by
      rintro ⟨done, value, later, h, -⟩
      simp at h
    rw [stays_nil]
    exact ⟨fun h => .inr ⟨h, h.le⟩, fun h => h.elim (absurd · hnone) And.left⟩
  | append_singleton ops op ih =>
    have hstep : s.performAll (ops ++ [op]) = (s.performAll ops).perform op := performAll_append ..
    have hdepth := depth_performAll s (ops ++ [op])
    rw [hstep] at hdepth ⊢
    rw [bindsAt_perform, ih, hdepth, depth_performAll, declared_concat, stays_concat, or_and_right,
      and_assoc, or_right_comm]

/-! ## Updates that go further out -/

/-- After the operations, in the scopes that they have begun around `d` others, an update of the name
goes to those others: none of the scopes begun since declares it. -/
def Reaches (d : Nat) (done : List (Op α)) (name : String) : Prop :=
  ¬ ∃ k, d < k ∧ Declared (d + 1) done k name

/-- No update of the name among the operations, which follow others, reaches the `d` scopes around. -/
def Unreached (d : Nat) (done ops : List (Op α)) (name : String) : Prop :=
  ∀ between value later, ops = between ++ .update name value :: later →
    ¬ Reaches d (done ++ between) name

/-- The last update of the name that reaches the `d` scopes around the operations has the value. -/
def LastUpdate (d : Nat) (ops : List (Op α)) (name : String) (value : α) : Prop :=
  ∃ done later, ops = done ++ .update name value :: later ∧ Reaches d done name ∧
    Unreached d (done ++ [.update name value]) later name

theorem Unreached.nil {done : List (Op α)} : Unreached d done [] name :=
  fun _ _ _ h => absurd h (by simp)

theorem Unreached.concat {done : List (Op α)} (h : Unreached d done ops name)
    (hop : ∀ value, op = .update name value → ¬ Reaches d (done ++ ops) name) :
    Unreached d done (ops ++ [op]) name := by
  intro between value later hops
  rcases List.eq_nil_or_concat later with rfl | ⟨later, last, rfl⟩
  · obtain ⟨rfl, hlast⟩ := List.append_inj' hops rfl
    exact hop value (List.cons.inj hlast).1
  · rw [List.concat_eq_append, ← List.cons_append, ← List.append_assoc] at hops
    exact h between value later (List.append_inj' hops rfl).1

theorem LastUpdate.concat (h : LastUpdate d ops name value)
    (hop : ∀ value, op = .update name value → ¬ Reaches d ops name) :
    LastUpdate d (ops ++ [op]) name value := by
  obtain ⟨done, later, rfl, hreaches, hlater⟩ := h
  refine ⟨done, later ++ [op], by simp, hreaches, hlater.concat fun value' h => ?_⟩
  rw [List.append_assoc]
  exact hop value' h

theorem lastUpdate_concat (h : Reaches d ops name) (value : α) :
    LastUpdate d (ops ++ [.update name value]) name value := ⟨ops, [], rfl, h, .nil⟩

/-! ## The scopes around -/

/-- The scope with `i` scopes inside is the innermost that binds the name. -/
def Innermost (s : Scopes α) (i : Nat) (name : String) : Prop :=
  (s.valueAt? i name).isSome ∧ ¬ s.Shadows i name

/-- The scopes `b` have the names of `s`. The innermost binding of a name has the value of the last
update that has reached it, or the value that it has in `s`. All others have their values in `s`. -/
structure Around (s : Scopes α) (ops : List (Op α)) (b : Scopes α) : Prop where
  restored : Restored [] s b
  value : ∀ i name, s.Innermost i name →
    (∃ value, LastUpdate s.depth ops name value ∧ b.valueAt? i name = some value) ∨
      (Unreached s.depth [] ops name ∧ b.valueAt? i name = s.valueAt? i name)

theorem Restored.innermost (h : Restored [] s t) (hs : s.Innermost i name) : t.Innermost i name := by
  refine ⟨by rw [isSome_valueAt?_congr h.names]; exact hs.1, fun ht => hs.2 ?_⟩
  rw [shadows_iff] at ht ⊢
  rwa [h.names] at ht

/-- An update goes to the innermost scope that binds the name. -/
theorem valueAt?_perform_update (h : s.Innermost i name) (value : α) :
    (s.perform (.update name value)).valueAt? i name = some value := by
  obtain ⟨hsome, hshadows⟩ := h
  unfold valueAt? Shadows at *
  rw [toList_perform_update]
  generalize s.toList = scopes at hsome hshadows ⊢
  induction scopes generalizing i with
  | nil => cases hsome
  | cons scope rest ih =>
    cases i with
    | zero =>
      have hbinds : scope.binds name = true := hsome
      rw [updateFirst, if_pos hbinds, List.getElem?_cons_zero, Option.bind_some, Scope.find?_replace,
        if_pos rfl]
      obtain ⟨old, hold⟩ := Option.isSome_iff_exists.mp hbinds
      rw [hold]
      rfl
    | succ i =>
      have hfree : ¬ scope.binds name = true := fun h => hshadows ⟨scope, List.mem_cons_self, h⟩
      rw [updateFirst, if_neg hfree]
      refine ih hsome ?_
      rintro ⟨found, hfound, hbinds⟩
      exact hshadows ⟨found, List.mem_cons_of_mem _ hfound, hbinds⟩

namespace Around

theorem refl (s : Scopes α) : Around s [] s := ⟨.refl s, fun _ _ _ => .inr ⟨.nil, rfl⟩⟩

/-- An operation that is no update or does not go that far leaves the scopes around it. -/
theorem concat (h : Around s ops b)
    (hop : ∀ name value, op = .update name value → ¬ Reaches s.depth ops name) :
    Around s (ops ++ [op]) b := by
  refine ⟨h.restored, fun i name hs => ?_⟩
  rcases h.value i name hs with ⟨value, hlast, hvalue⟩ | ⟨hnone, hvalue⟩
  · exact .inl ⟨value, hlast.concat (hop name), hvalue⟩
  · exact .inr ⟨hnone.concat (hop name), hvalue⟩

theorem concat_of_ne (h : Around s ops b) (hop : ∀ name value, op ≠ .update name value) :
    Around s (ops ++ [op]) b :=
  h.concat fun name value heq => absurd heq (hop name value)

/-- An update that goes that far updates the scopes around it. -/
theorem update (h : Around s ops b) (hreaches : Reaches s.depth ops name) (value : α) :
    Around s (ops ++ [.update name value]) (b.perform (.update name value)) := by
  refine ⟨h.restored.trans (restored_perform_update b name value), fun i other hs => ?_⟩
  by_cases hother : other = name
  · subst hother
    exact .inl ⟨value, lastUpdate_concat hreaches value,
      valueAt?_perform_update (h.restored.innermost hs) value⟩
  · have hop : ∀ value', Op.update name value = .update other value' →
        ¬ Reaches s.depth ops other := by
      intro _ h
      cases h
      exact absurd rfl hother
    rw [valueAt?_perform_update_of_ne hother]
    rcases h.value i other hs with ⟨value', hlast, hvalue⟩ | ⟨hnone, hvalue⟩
    · exact .inl ⟨value', hlast.concat hop, hvalue⟩
    · exact .inr ⟨hnone.concat hop, hvalue⟩

/-- Nothing but the innermost binding of a name can have changed. -/
theorem innermost_of_ne (h : Around s ops b) (hne : b.valueAt? i name ≠ s.valueAt? i name) :
    s.Innermost i name := by
  refine ⟨?_, fun hshadows => hne (h.restored.hidden i name hshadows)⟩
  by_contra hnone
  have hb : (b.valueAt? i name).isSome = (s.valueAt? i name).isSome :=
    isSome_valueAt?_congr h.restored.names
  rw [Bool.not_eq_true] at hnone
  rw [hnone, Option.isSome_eq_false_iff, Option.isNone_iff_eq_none] at hb
  rw [Option.isSome_eq_false_iff, Option.isNone_iff_eq_none] at hnone
  exact hne (hb.trans hnone.symm)

end Around

/-! ## Operations in scopes of their own -/

theorem updateFirst_append_of_binds {scopes : List (Scope α)}
    (h : ∃ scope ∈ scopes, scope.binds name = true) (around : List (Scope α)) :
    updateFirst name value (scopes ++ around) = updateFirst name value scopes ++ around := by
  induction scopes with
  | nil =>
    obtain ⟨_, hmem, _⟩ := h
    cases hmem
  | cons scope rest ih =>
    rw [List.cons_append, updateFirst, updateFirst]
    by_cases hscope : scope.binds name = true
    · rw [if_pos hscope, if_pos hscope, List.cons_append]
    · obtain ⟨found, hfound, hbinds⟩ := h
      rcases List.mem_cons.mp hfound with rfl | hfound
      · exact absurd hbinds hscope
      · rw [if_neg hscope, if_neg hscope, ih ⟨found, hfound, hbinds⟩, List.cons_append]

theorem updateFirst_append_of_free {scopes : List (Scope α)}
    (h : ¬ ∃ scope ∈ scopes, scope.binds name = true) (around : List (Scope α)) :
    updateFirst name value (scopes ++ around) = scopes ++ updateFirst name value around := by
  induction scopes with
  | nil => rfl
  | cons scope rest ih =>
    have hscope : ¬ scope.binds name = true := fun hs => h ⟨scope, List.mem_cons_self, hs⟩
    rw [List.cons_append, updateFirst, if_neg hscope, List.cons_append, ih]
    rintro ⟨found, hfound, hbinds⟩
    exact h ⟨found, List.mem_cons_of_mem _ hfound, hbinds⟩

/-- An update reaches the scopes around if none of those begun since binds the name. -/
theorem reaches_iff {own : List (Scope α)}
    (hlist : (s.enter.performAll ops).toList = own ++ b.toList) (hdepth : b.depth = s.depth) :
    Reaches s.depth ops name ↔ ¬ ∃ scope ∈ own, scope.binds name = true := by
  apply not_congr
  have hdeclared {k : Nat} (hk : s.depth < k) : Declared (s.depth + 1) ops k name ↔
      (s.enter.performAll ops).BindsAt k name := by
    rw [bindsAt_performAll, bindsAt_enter, depth_enter]
    exact ⟨.inl, fun h => h.elim id fun h => absurd h.1.le (by omega)⟩
  have hall : (s.enter.performAll ops).depth = own.length + s.depth := by
    rw [← hdepth, depth, hlist, List.length_append]
    rfl
  constructor
  · rintro ⟨k, hk, h⟩
    obtain ⟨i, hi, hsome⟩ := (hdeclared hk).1 h
    obtain ⟨scope, hscope, hbinds⟩ := isSome_valueAt?_iff.1 hsome
    rw [hlist, List.getElem?_append_left (by omega)] at hscope
    exact ⟨scope, List.mem_of_getElem? hscope, hbinds⟩
  · rintro ⟨scope, hscope, hbinds⟩
    obtain ⟨i, hi, hget⟩ := List.mem_iff_getElem.1 hscope
    have hk : s.depth < s.depth + (own.length - i) := by omega
    refine ⟨_, hk, (hdeclared hk).2 ⟨i, by omega, isSome_valueAt?_iff.2 ⟨scope, ?_, hbinds⟩⟩⟩
    rw [hlist, List.getElem?_append_left hi, List.getElem?_eq_getElem hi, hget]

@[simp] theorem enters_concat : enters (ops ++ [op]) = enters ops + if op.isEnter then 1 else 0 := by
  rw [enters, List.countP_append, List.countP_singleton]
  rfl

@[simp] theorem exits_concat : exits (ops ++ [op]) = exits ops + if op.isExit then 1 else 0 := by
  rw [exits, List.countP_append, List.countP_singleton]
  rfl

/-- As long as a scope has not ended, the scopes around it are what the updates that reach them have
made of them. -/
theorem exists_around (s : Scopes α) (h : ∀ done, done <+: ops → exits done ≤ enters done) :
    ∃ own b, (s.enter.performAll ops).toList = own ++ b.toList ∧
      own.length + exits ops = enters ops + 1 ∧ Around s ops b := by
  induction ops using List.reverseRecOn with
  | nil => exact ⟨[[]], s, rfl, rfl, .refl s⟩
  | append_singleton ops op ih =>
    obtain ⟨own, b, hlist, hlength, haround⟩ :=
      ih fun done hdone => h done (hdone.trans (List.prefix_append ..))
    have hops : exits ops ≤ enters ops := h ops (List.prefix_append ..)
    have hlast : exits (ops ++ [op]) ≤ enters (ops ++ [op]) := h _ List.prefix_rfl
    have hstep : s.enter.performAll (ops ++ [op]) = (s.enter.performAll ops).perform op :=
      performAll_append ..
    rw [hstep]
    generalize hu : s.enter.performAll ops = u at hlist
    obtain ⟨inner, own, rfl⟩ := List.exists_cons_of_length_pos (l := own) (by omega)
    have hinner : u.inner = inner := (List.cons.inj hlist).1
    have houter : u.outer = own ++ b.toList := (List.cons.inj hlist).2
    rw [List.length_cons] at hlength
    rw [enters_concat, exits_concat] at hlast ⊢
    cases op with
    | enter =>
      refine ⟨[] :: inner :: own, b, ?_, ?_, haround.concat_of_ne (by simp)⟩
      · show [] :: u.toList = _
        rw [hlist]
        rfl
      · simp [Op.isEnter, Op.isExit]
        omega
    | exit =>
      simp only [Op.isEnter, Op.isExit, if_true, Bool.false_eq_true, if_false] at hlast ⊢
      obtain ⟨next, own, rfl⟩ := List.exists_cons_of_length_pos (l := own) (by omega)
      refine ⟨next :: own, b, ?_, by omega, haround.concat_of_ne (by simp)⟩
      show u.exit.toList = _
      rw [Scopes.exit, houter]
      rfl
    | declare name value =>
      obtain ⟨inner', hperform, -⟩ := perform_declare u name value
      refine ⟨inner' :: own, b, ?_, hlength, haround.concat_of_ne (by simp)⟩
      rw [hperform, toList, houter]
      rfl
    | lookup => exact ⟨inner :: own, b, hlist, hlength, haround.concat_of_ne (by simp)⟩
    | update name value =>
      have hreaches : Reaches s.depth ops name ↔ ¬ ∃ scope ∈ inner :: own, scope.binds name = true :=
        reaches_iff (hu ▸ hlist) haround.restored.depth
      rw [toList_perform_update, hlist]
      by_cases hbinds : ∃ scope ∈ inner :: own, scope.binds name = true
      · refine ⟨updateFirst name value (inner :: own), b, updateFirst_append_of_binds hbinds _,
          by rw [length_updateFirst]; exact hlength, haround.concat ?_⟩
        intro _ _ h
        cases h
        exact fun h => hreaches.1 h hbinds
      · refine ⟨inner :: own, b.perform (.update name value), ?_, hlength,
          haround.update (hreaches.2 hbinds) value⟩
        rw [updateFirst_append_of_free hbinds, toList_perform_update]

/-- Operations that are balanced leave, when their scope has ended, the scopes that were there before it
began. -/
theorem Balanced.around (h : Balanced ops) (s : Scopes α) :
    Around s ops (s.performAll (.enter :: ops ++ [.exit])) := by
  obtain ⟨own, b, hlist, hlength, haround⟩ := exists_around s h.exits_le
  have hown : own.length = 1 := by
    have := h.exits_eq
    omega
  obtain ⟨inner, rfl⟩ := List.length_eq_one_iff.mp hown
  have hexit : s.performAll (.enter :: ops ++ [.exit]) = (s.enter.performAll ops).exit := by
    rw [List.cons_append]
    exact performAll_append ..
  have hb : (s.enter.performAll ops).outer = b.toList := (List.cons.inj hlist).2
  rw [hexit, Scopes.exit, hb]
  exact haround

/-- Balanced operations in a scope of their own leave as many scopes as there were, and these bind the
same names. Nothing but the innermost binding of a name can have changed: it has the value of the last
update of the name made when none of the scopes begun since declared it, and its old value if there is
none. After any operations there are as many scopes as have begun and not ended, at least one. A scope
binds what has been declared in it since it began, and a look-up finds the value in the innermost scope
that binds the name. -/
theorem scope_is_bracket (s : Scopes α) :
    (∀ ops, Balanced ops →
      let t := s.performAll (.enter :: ops ++ [.exit])
      t.depth = s.depth ∧ t.toList.map Scope.names = s.toList.map Scope.names ∧
      (∀ i name, t.valueAt? i name ≠ s.valueAt? i name → s.Innermost i name) ∧
      ∀ i name, s.Innermost i name →
        (∃ value, LastUpdate s.depth ops name value ∧ t.valueAt? i name = some value) ∨
          (Unreached s.depth [] ops name ∧ t.valueAt? i name = s.valueAt? i name)) ∧
    ∀ ops,
      let t := s.performAll ops
      t.depth = heightAfter s.depth ops ∧ 1 ≤ t.depth ∧
      (∀ k name, t.BindsAt k name ↔
        Declared s.depth ops k name ∨ (s.BindsAt k name ∧ Stays s.depth k ops)) ∧
      (∀ name value, t.lookup? name = some value ↔
        ∃ i, t.Innermost i name ∧ t.valueAt? i name = some value) ∧
      ∀ name, t.lookup? name = none ↔ ∀ i, t.valueAt? i name = none := by
  constructor
  · intro ops hops t
    have haround : Around s ops t := hops.around s
    exact ⟨haround.restored.depth, haround.restored.names, fun _ _ => haround.innermost_of_ne,
      haround.value⟩
  · intro ops t
    refine ⟨depth_performAll s ops, t.depth_pos, fun _ _ => bindsAt_performAll, fun name value => ?_,
      fun _ => lookup?_eq_none_iff⟩
    rw [lookup?_eq_some_iff]
    apply exists_congr
    intro i
    constructor
    · rintro ⟨hvalue, hshadows⟩
      exact ⟨⟨by rw [hvalue]; rfl, hshadows⟩, hvalue⟩
    · rintro ⟨hinnermost, hvalue⟩
      exact ⟨hvalue, hinnermost.2⟩

/-- Updates go to other scopes before and after the declarations of the names further in, one of which
fails. -/
theorem scope_is_bracket_interleaved :
    let s : Scopes Nat := ⟨[("x", 1)], [[("x", 9), ("y", 2)]]⟩
    let ops : List (Op Nat) := [.update "x" 3, .enter, .declare "x" 4, .update "x" 5,
      .update "y" 6, .exit, .declare "y" 7, .update "y" 8, .declare "y" 0, .update "x" 10, .enter,
      .lookup "y", .exit]
    let t := s.performAll (.enter :: ops ++ [.exit])
    Balanced ops ∧ t.depth = 2 ∧ t.toList.map Scope.names = [["x"], ["x", "y"]] ∧
      t.valueAt? 0 "x" = some 10 ∧ t.valueAt? 1 "x" = some 9 ∧ t.valueAt? 1 "y" = some 6 := by
  intro s ops t
  have hops : Balanced ops := by decide
  obtain ⟨hdepth, hnames, hsame, -⟩ := (scope_is_bracket s).1 ops hops
  refine ⟨hops, hdepth, hnames, by decide, ?_, by decide⟩
  -- the other `x` is hidden
  have hhidden : s.Shadows 1 "x" := ⟨[("x", 1)], List.mem_cons_self, rfl⟩
  exact not_not.mp fun hne => (hsame 1 "x" hne).2 hhidden

end Scopes

end ListScript
