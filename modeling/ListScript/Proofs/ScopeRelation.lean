import ListScript.Scopes
import Mathlib

/-!
# Two stacks of scopes that agree

Two stacks agree on some names up to a relation if they have the same height and, scope by scope,
bind the same of those names to related entries.

* `Scope.Agree`, `Scopes.Agree` : one scope, and all of them;
* `Scope.find?_replace` : what replacing an entry changes;
* `Scopes.Agree.lookup?`, `Scopes.Agree.declare?`, `Scopes.Agree.update?` : the operations go the
  same way in both stacks, and what they leave agrees again; `Scopes.Agree.enterWith`,
  `Scopes.Agree.exit` : so do scopes that begin and end;
* `Scopes.Agree.refl`, `Scopes.Agree.trans` : stacks that bind the same;
* `Scopes.agree_of_declare?`, `Scopes.agree_of_update?` : binding a name changes no other;
* `Scopes.Agree.update?_left` : replacing an entry on one side by another that is related to the
  entry on the other side.
-/

namespace ListScript

variable {α β : Type} {names : Set String} {R : α → β → Prop}

/-- What is related to something is something. -/
theorem exists_of_rel_some {x : Option α} {b : β} (h : Option.Rel R x (some b)) :
    ∃ a, x = some a ∧ R a b := by
  cases h with
  | some hr => exact ⟨_, rfl, hr⟩

/-- What is related to nothing is nothing. -/
theorem eq_none_of_rel {x : Option α} (h : Option.Rel R x (none : Option β)) : x = none := by
  cases h with
  | none => rfl

theorem option_rel_eq_iff {x y : Option α} : Option.Rel Eq x y ↔ x = y := by
  constructor
  · intro h
    cases h with
    | none => rfl
    | some heq => rw [heq]
  · rintro rfl
    cases x with
    | none => exact .none
    | some a => exact .some rfl

/-! ## One scope -/

namespace Scope

@[simp] theorem find?_nil (name : String) : Scope.find? ([] : Scope α) name = none := rfl

theorem find?_cons (entry : String × α) (scope : Scope α) (name : String) :
    Scope.find? (entry :: scope) name =
      if name = entry.1 then some entry.2 else scope.find? name := by
  obtain ⟨key, value⟩ := entry
  rw [find?, find?, List.lookup_cons]
  by_cases h : name = key
  · simp [h]
  · simp [h, beq_false_of_ne h]

/-- Replacing the entry of a name changes that entry and no other. -/
theorem find?_replace (scope : Scope α) (target name : String) (value : α) :
    (scope.replace target value).find? name =
      if name = target then (scope.find? name).map fun _ => value else scope.find? name := by
  induction scope with
  | nil => simp [replace]
  | cons entry scope ih =>
    have step : replace (entry :: scope) target value =
        (if entry.1 = target then (entry.1, value) else entry) :: replace scope target value := rfl
    rw [step, find?_cons, find?_cons, ih]
    by_cases h : entry.1 = target
    · by_cases hn : name = target
      · simp [h, hn]
      · simp [h, hn]
    · by_cases hn : name = entry.1
      · have : name ≠ target := by rw [hn]; exact h
        simp [h, hn]
      · simp [h, hn]

/-- The two scopes bind the same of the names, to related entries. -/
def Agree (names : Set String) (R : α → β → Prop) (s : Scope α) (t : Scope β) : Prop :=
  ∀ name ∈ names, Option.Rel R (s.find? name) (t.find? name)

namespace Agree

variable {s : Scope α} {t : Scope β}

theorem nil : Agree names R [] [] := fun _ _ => .none

theorem binds (h : Agree names R s t) {name : String} (hn : name ∈ names) :
    s.binds name = t.binds name := by
  have := h name hn
  unfold Scope.binds
  generalize s.find? name = a at this
  generalize t.find? name = b at this
  cases this with
  | none => rfl
  | some _ => rfl

theorem cons (h : Agree names R s t) (name : String) {a : α} {b : β} (hr : R a b) :
    Agree names R ((name, a) :: s) ((name, b) :: t) := by
  intro other ho
  rw [find?_cons, find?_cons]
  by_cases hn : other = name
  · simpa [hn] using Option.Rel.some hr
  · simpa [hn] using h other ho

theorem replace (h : Agree names R s t) (name : String) {a : α} {b : β} (hr : R a b) :
    Agree names R (s.replace name a) (t.replace name b) := by
  intro other ho
  have hs := h other ho
  rw [find?_replace, find?_replace]
  by_cases hn : other = name
  · simp only [hn, if_true] at hs ⊢
    generalize s.find? name = x at hs ⊢
    generalize t.find? name = y at hs ⊢
    cases hs with
    | none => exact .none
    | some _ => exact .some hr
  · simpa [hn] using hs

theorem replace_left (h : Agree names R s t) (name : String) {a : α} {b : β}
    (hb : t.find? name = some b) (hr : R a b) : Agree names R (s.replace name a) t := by
  intro other ho
  have hs := h other ho
  rw [find?_replace]
  by_cases hn : other = name
  · simp only [hn, if_true, hb] at hs ⊢
    generalize s.find? name = x at hs ⊢
    cases hs with
    | some _ => exact .some hr
  · simpa [hn] using hs

end Agree

/-- Two scopes that agree up to equality bind the names to the same. -/
theorem agree_eq_iff {s t : Scope α} :
    Agree names Eq s t ↔ ∀ name ∈ names, s.find? name = t.find? name :=
  forall₂_congr fun _ _ => option_rel_eq_iff

end Scope

/-! ## The operations on all scopes -/

namespace Scopes

theorem declare?_of_free {s : Scopes α} {name : String} (h : s.inner.binds name = false)
    (value : α) : s.declare? name value = some ⟨(name, value) :: s.inner, s.outer⟩ := by
  rw [declare?, h]
  rfl

theorem isSome_lookup? (s : Scopes α) (name : String) :
    (s.lookup? name).isSome = s.toList.any (·.binds name) := by
  unfold lookup?
  induction s.toList with
  | nil => rfl
  | cons scope rest ih =>
    rw [List.findSome?_cons, List.any_cons, ← ih, Scope.binds]
    cases scope.find? name <;> rfl

/-- Replacing succeeds where the name is bound. -/
theorem exists_update? {s : Scopes α} {name : String} (value : α)
    (h : s.toList.any (·.binds name) = true) : ∃ t, s.update? name value = some t := by
  unfold update?
  rw [toList, List.any_cons, Bool.or_eq_true] at h
  by_cases hi : s.inner.binds name = true
  · exact ⟨_, if_pos hi⟩
  · rw [if_neg hi, if_pos (h.resolve_left hi)]
    exact ⟨_, rfl⟩

theorem update?_eq_none {s : Scopes α} {name : String} {value : α}
    (h : ¬ s.toList.any (·.binds name) = true) : s.update? name value = none := by
  rw [toList, List.any_cons, Bool.or_eq_true, not_or] at h
  rw [update?, if_neg h.1, if_neg h.2]

/-- Replacing touches the first scope that binds the name. -/
theorem toList_of_update? {s t : Scopes α} {name : String} {value : α}
    (h : s.update? name value = some t) : t.toList = updateFirst name value s.toList := by
  unfold update? at h
  rw [toList, toList, updateFirst]
  split at h
  · next hi => cases h; rw [if_pos hi]
  · next hi =>
    split at h
    · cases h; rw [if_neg hi]
    · cases h

/-! ## Stacks that agree -/

/-- The two stacks have the same height and agree scope by scope. -/
def Agree (names : Set String) (R : α → β → Prop) (s : Scopes α) (t : Scopes β) : Prop :=
  List.Forall₂ (Scope.Agree names R) s.toList t.toList

theorem agree_iff {s : Scopes α} {t : Scopes β} : Agree names R s t ↔
    Scope.Agree names R s.inner t.inner ∧ List.Forall₂ (Scope.Agree names R) s.outer t.outer := by
  simp [Agree, toList]

namespace Agree

variable {s : Scopes α} {t : Scopes β} {name : String} {a : α} {b : β}

theorem empty : Agree names R Scopes.empty Scopes.empty := .cons .nil .nil

theorem refl (s : Scopes α) : Agree names Eq s s :=
  List.forall₂_same.2 fun _ _ => Scope.agree_eq_iff.2 fun _ _ => rfl

theorem trans {s t u : Scopes α} (h : Agree names Eq s t) (h' : Agree names Eq t u) :
    Agree names Eq s u := by
  unfold Agree at h h' ⊢
  generalize s.toList = ss, t.toList = ts, u.toList = us at h h' ⊢
  induction h generalizing us with
  | nil => exact h'
  | cons hscope _ ih =>
    cases h' with
    | cons hscope' hrest =>
      refine .cons (Scope.agree_eq_iff.2 fun name hn => ?_) (ih _ hrest)
      exact (Scope.agree_eq_iff.1 hscope name hn).trans (Scope.agree_eq_iff.1 hscope' name hn)

theorem enterWith (h : Agree names R s t) (name : String) (hr : R a b) :
    Agree names R (s.enterWith name a) (t.enterWith name b) :=
  .cons (Scope.Agree.nil.cons name hr) h

theorem exit (h : Agree names R s t) : Agree names R s.exit t.exit := by
  obtain ⟨hinner, houter⟩ := agree_iff.1 h
  unfold Scopes.exit
  cases hs : s.outer <;> cases ht : t.outer <;> rw [hs, ht] at houter <;> cases houter
  · exact h
  · next hscope hrest => exact agree_iff.2 ⟨hscope, hrest⟩

/-- Looking a name up finds related entries, or none in both. -/
theorem lookup? (h : Agree names R s t) (hn : name ∈ names) :
    Option.Rel R (s.lookup? name) (t.lookup? name) := by
  unfold Scopes.lookup?
  unfold Agree at h
  generalize s.toList = ss at h ⊢
  generalize t.toList = ts at h ⊢
  induction h with
  | nil => exact .none
  | @cons scope scope' _ _ hscope _ ih =>
    have hfind := hscope name hn
    rw [List.findSome?_cons, List.findSome?_cons]
    generalize scope.find? name = x at hfind ⊢
    generalize scope'.find? name = y at hfind ⊢
    cases hfind with
    | none => exact ih
    | some hr => exact .some hr

/-- Where two stacks bind a name to the same, it has one meaning. -/
theorem lookup?_eq {s t : Scopes α} (h : Agree names Eq s t) (hn : name ∈ names) :
    s.lookup? name = t.lookup? name :=
  option_rel_eq_iff.1 (h.lookup? hn)

/-- Declaring a name goes the same way in both. -/
theorem declare? (h : Agree names R s t) (hn : name ∈ names) (hr : R a b) :
    Option.Rel (Agree names R) (s.declare? name a) (t.declare? name b) := by
  obtain ⟨hinner, houter⟩ := agree_iff.1 h
  unfold Scopes.declare?
  rw [hinner.binds hn]
  split
  · exact .none
  · exact .some (agree_iff.2 ⟨hinner.cons name hr, houter⟩)

theorem any_binds {ss : List (Scope α)} {ts : List (Scope β)}
    (h : List.Forall₂ (Scope.Agree names R) ss ts) (hn : name ∈ names) :
    ss.any (·.binds name) = ts.any (·.binds name) := by
  induction h with
  | nil => rfl
  | cons hscope _ ih => rw [List.any_cons, List.any_cons, hscope.binds hn, ih]

theorem updateFirst {ss : List (Scope α)} {ts : List (Scope β)}
    (h : List.Forall₂ (Scope.Agree names R) ss ts) (hn : name ∈ names) (hr : R a b) :
    List.Forall₂ (Scope.Agree names R) (Scopes.updateFirst name a ss)
      (Scopes.updateFirst name b ts) := by
  induction h with
  | nil => exact .nil
  | cons hscope hrest ih =>
    rw [Scopes.updateFirst, Scopes.updateFirst, hscope.binds hn]
    split
    · exact .cons (hscope.replace name hr) hrest
    · exact .cons hscope ih

/-- Replacing the value of a name goes the same way in both. -/
theorem update? (h : Agree names R s t) (hn : name ∈ names) (hr : R a b) :
    Option.Rel (Agree names R) (s.update? name a) (t.update? name b) := by
  have hany : s.toList.any (·.binds name) = t.toList.any (·.binds name) := any_binds h hn
  by_cases hb : t.toList.any (·.binds name) = true
  · obtain ⟨s', hs⟩ := exists_update? a (hany.trans hb)
    obtain ⟨t', ht⟩ := exists_update? b hb
    rw [hs, ht]
    refine .some ?_
    unfold Agree
    rw [toList_of_update? hs, toList_of_update? ht]
    exact updateFirst h hn hr
  · rw [update?_eq_none hb, update?_eq_none (hany ▸ hb)]
    exact .none

theorem updateFirst_left {ss : List (Scope α)} {ts : List (Scope β)}
    (h : List.Forall₂ (Scope.Agree names R) ss ts) (hn : name ∈ names)
    (hb : ts.findSome? (fun scope => scope.find? name) = some b) (hr : R a b) :
    List.Forall₂ (Scope.Agree names R) (Scopes.updateFirst name a ss) ts := by
  induction h with
  | nil => exact .nil
  | @cons scope scope' _ _ hscope hrest ih =>
    rw [List.findSome?_cons] at hb
    rw [Scopes.updateFirst, hscope.binds hn, Scope.binds]
    cases hf : scope'.find? name with
    | none =>
      rw [hf] at hb
      exact .cons hscope (ih hb)
    | some b' =>
      rw [hf] at hb
      cases hb
      exact .cons (hscope.replace_left name hf hr) hrest

/-- A value that is related to the entry of the other stack can replace the one it was related
to. -/
theorem update?_left (h : Agree names R s t) (hn : name ∈ names) (hb : t.lookup? name = some b)
    (hr : R a b) : ∃ s', s.update? name a = some s' ∧ Agree names R s' t := by
  have hany : s.toList.any (·.binds name) = true := by
    rw [any_binds h hn, ← isSome_lookup?, hb]; rfl
  obtain ⟨s', hs⟩ := exists_update? a hany
  refine ⟨s', hs, ?_⟩
  unfold Agree
  rw [toList_of_update? hs]
  exact updateFirst_left h hn hb hr

end Agree

/-! ## What binding a name leaves as it is -/

variable {s t : Scopes α} {name : String} {value : α}

/-- Declaring a name changes the entry of no other. -/
theorem agree_of_declare? (h : s.declare? name value = some t) (hn : name ∉ names) :
    Agree names Eq s t := by
  unfold declare? at h
  split at h <;> cases h
  refine agree_iff.2 ⟨Scope.agree_eq_iff.2 fun other ho => ?_, (agree_iff.1 (.refl s)).2⟩
  rw [Scope.find?_cons, if_neg]
  rintro rfl
  exact hn ho

theorem agree_updateFirst (scopes : List (Scope α)) (value : α) (hn : name ∉ names) :
    List.Forall₂ (Scope.Agree names Eq) scopes (updateFirst name value scopes) := by
  induction scopes with
  | nil => exact .nil
  | cons scope rest ih =>
    have hscope : Scope.Agree names Eq scope (scope.replace name value) := by
      refine Scope.agree_eq_iff.2 fun other ho => ?_
      rw [Scope.find?_replace, if_neg]
      rintro rfl
      exact hn ho
    rw [updateFirst]
    split
    · exact .cons hscope (List.forall₂_same.2 fun _ _ => Scope.agree_eq_iff.2 fun _ _ => rfl)
    · exact .cons (Scope.agree_eq_iff.2 fun _ _ => rfl) ih

/-- Replacing the value of a name changes the entry of no other. -/
theorem agree_of_update? (h : s.update? name value = some t) (hn : name ∉ names) :
    Agree names Eq s t := by
  unfold Agree
  rw [toList_of_update? h]
  exact agree_updateFirst s.toList value hn

end Scopes

end ListScript
