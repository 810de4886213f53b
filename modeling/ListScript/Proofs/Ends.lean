/-!
# How a step ends

A step of the reader, of the checker and of the machine is a function of a state that has an answer
or an error, and a state after it.

* `answerOf`, `stateAfter` : what a step answers, and the state that it leaves behind;
* `Ends good bad r` : the result `r` is an answer with a state of which `good` holds, or an error
  with a state of which `bad` holds (`Ends.mono`, `Ends.bind`, `Ends.discard`);
* `EndAlike E R r r'` : two results with the same answer or with errors that `E` relates, and with
  states that `R` relates (`EndAlike.mono`, `EndAlike.trans_eq`, `EndAlike.and_ends`,
  `EndAlike.bind`, `EndAlike.discard`);
* `step_bind_eq_ok`, `step_bind_eq_error` : the answer and the error of two steps, one after the
  other;
* `completed`, `stateAfter_forM` : the steps that succeed when a step is taken for each of some
  elements, and where they lead;
* `ok_bind`, `bind_eq_ok`, `bind_eq_error` : the answer and the error of two computations, one after
  the other, that have no state.
-/

namespace ListScript

variable {ε σ α β : Type}

/-- The answer of a step, or its error. -/
def answerOf (x : EStateM ε σ α) (s : σ) : Except ε α :=
  match x s with
  | .ok a _ => .ok a
  | .error e _ => .error e

/-- The state that a step leaves behind, whether it succeeds or fails. -/
def stateAfter (x : EStateM ε σ α) (s : σ) : σ :=
  match x s with
  | .ok _ t | .error _ t => t

/-- The result is an answer of which `good` holds, or an error of which `bad` holds. -/
inductive Ends (good : α → σ → Prop) (bad : ε → σ → Prop) : EStateM.Result ε σ α → Prop
  | ok {a : α} {s : σ} : good a s → Ends good bad (.ok a s)
  | error {e : ε} {s : σ} : bad e s → Ends good bad (.error e s)

namespace Ends

variable {x : EStateM ε σ α} {f : α → EStateM ε σ β} {s : σ}
variable {good : α → σ → Prop} {bad : ε → σ → Prop}

theorem of_ok {r : EStateM.Result ε σ α} {a : α} {t : σ} (h : Ends good bad r) (hr : r = .ok a t) :
    good a t := by
  subst hr
  cases h with
  | ok ha => exact ha

theorem of_error {r : EStateM.Result ε σ α} {e : ε} {t : σ} (h : Ends good bad r)
    (hr : r = .error e t) : bad e t := by
  subst hr
  cases h with
  | error he => exact he

/-- What holds of the state however a step ends. -/
theorem stateAfter {P : σ → Prop} (h : Ends (fun _ => P) (fun _ => P) (x s)) :
    P (stateAfter x s) := by
  unfold ListScript.stateAfter
  cases hr : x s with
  | ok a t => exact h.of_ok hr
  | error e t => exact h.of_error hr

theorem mono {r : EStateM.Result ε σ α} {good' : α → σ → Prop} {bad' : ε → σ → Prop}
    (h : Ends good bad r) (hgood : ∀ a t, good a t → good' a t) (hbad : ∀ e t, bad e t → bad' e t) :
    Ends good' bad' r := by
  cases h with
  | ok ha => exact .ok (hgood _ _ ha)
  | error he => exact .error (hbad _ _ he)

/-- What the first step leaves behind is enough for the second. -/
theorem bind {mid : α → σ → Prop} {good : β → σ → Prop} (hx : Ends mid bad (x s))
    (hf : ∀ a t, mid a t → Ends good bad (f a t)) : Ends good bad ((x >>= f) s) := by
  change Ends good bad (EStateM.bind x f s)
  unfold EStateM.bind
  cases hr : x s with
  | ok a t => exact hf a t (hx.of_ok hr)
  | error e t => exact .error (hx.of_error hr)

/-- A step ends as well if its answer is not used. -/
theorem discard {good : σ → Prop} (hx : Ends (fun _ => good) bad (x s)) :
    Ends (fun _ => good) bad ((Functor.discard x : EStateM ε σ PUnit) s) := by
  change Ends _ _ (EStateM.map (Function.const α PUnit.unit) x s)
  unfold EStateM.map
  cases hr : x s with
  | ok a t => exact .ok (hx.of_ok hr)
  | error e t => exact .error (hx.of_error hr)

end Ends

/-! ## Two steps that end alike -/

variable {δ τ : Type}

/-- The two results are the same answer or errors that `E` relates, with states that `R` relates. -/
inductive EndAlike (E : ε → δ → Prop) (R : σ → τ → Prop) :
    EStateM.Result ε σ α → EStateM.Result δ τ α → Prop
  | ok {a : α} {s : σ} {t : τ} : R s t → EndAlike E R (.ok a s) (.ok a t)
  | error {e : ε} {d : δ} {s : σ} {t : τ} : E e d → R s t → EndAlike E R (.error e s) (.error d t)

namespace EndAlike

variable {E : ε → δ → Prop} {R : σ → τ → Prop} {s : σ} {t : τ}
variable {r : EStateM.Result ε σ α} {r' : EStateM.Result δ τ α}

theorem mono {R' : σ → τ → Prop} (h : EndAlike E R r r') (hR : ∀ s t, R s t → R' s t) :
    EndAlike E R' r r' := by
  cases h with
  | ok hst => exact .ok (hR _ _ hst)
  | error he hst => exact .error he (hR _ _ hst)

theorem of_ok {a : α} (h : EndAlike E R r r') (hr : r = .ok a s) : ∃ t, r' = .ok a t ∧ R s t := by
  subst hr
  cases h with
  | ok hst => exact ⟨_, rfl, hst⟩

theorem of_error {e : ε} (h : EndAlike E R r r') (hr : r = .error e s) :
    ∃ d t, r' = .error d t ∧ E e d ∧ R s t := by
  subst hr
  cases h with
  | error he hst => exact ⟨_, _, rfl, he, hst⟩

theorem trans_eq {ρ : Type} {r'' : EStateM.Result δ ρ α} {R : σ → ρ → Prop} {q : EStateM.Result ε ρ α}
    (h : EndAlike Eq R r q) (h' : EndAlike E Eq q r'') : EndAlike E R r r'' := by
  cases h with
  | ok hst =>
    cases h' with
    | ok heq => exact .ok (heq ▸ hst)
  | error he hst =>
    subst he
    cases h' with
    | error he' heq => exact .error he' (heq ▸ hst)

/-- Two steps that end alike go on alike if what follows them does. -/
theorem bind {x : EStateM ε σ α} {x' : EStateM δ τ α} {f : α → EStateM ε σ β}
    {f' : α → EStateM δ τ β} (hx : EndAlike E R (x s) (x' t))
    (hf : ∀ a s t, R s t → EndAlike E R (f a s) (f' a t)) :
    EndAlike E R ((x >>= f) s) ((x' >>= f') t) := by
  change EndAlike E R (EStateM.bind x f s) (EStateM.bind x' f' t)
  unfold EStateM.bind
  generalize x s = r, x' t = r' at hx
  cases hx with
  | ok hst => exact hf _ _ _ hst
  | error he hst => exact .error he hst

theorem discard {x : EStateM ε σ α} {x' : EStateM δ τ α} (hx : EndAlike E R (x s) (x' t)) :
    EndAlike E R ((Functor.discard x : EStateM ε σ PUnit) s)
      ((Functor.discard x' : EStateM δ τ PUnit) t) := by
  change EndAlike E R (EStateM.map (Function.const α PUnit.unit) x s)
    (EStateM.map (Function.const α PUnit.unit) x' t)
  unfold EStateM.map
  generalize x s = r, x' t = r' at hx
  cases hx with
  | ok hst => exact .ok hst
  | error he hst => exact .error he hst

/-- Two steps that end alike have the same answer, if their errors are the same. -/
theorem answerOf_eq {x : EStateM ε σ α} {x' : EStateM ε τ α} (h : EndAlike Eq R (x s) (x' t)) :
    answerOf x s = answerOf x' t := by
  unfold answerOf
  generalize x s = r, x' t = r' at h
  cases h with
  | ok _ => rfl
  | error he _ => rw [he]

theorem stateAfter {x : EStateM ε σ α} {x' : EStateM δ τ α} (h : EndAlike E R (x s) (x' t)) :
    R (stateAfter x s) (stateAfter x' t) := by
  unfold ListScript.stateAfter
  generalize x s = r, x' t = r' at h
  cases h with
  | ok hst => exact hst
  | error _ hst => exact hst

/-- What holds of each of the two states, however the step ends, holds besides. -/
theorem and_ends {P : σ → Prop} {Q : τ → Prop} (h : EndAlike E R r r')
    (hr : Ends (fun _ => P) (fun _ => P) r) (hr' : Ends (fun _ => Q) (fun _ => Q) r') :
    EndAlike E (fun s t => R s t ∧ P s ∧ Q t) r r' := by
  cases h with
  | ok hst => exact .ok ⟨hst, hr.of_ok rfl, hr'.of_ok rfl⟩
  | error he hst => exact .error he ⟨hst, hr.of_error rfl, hr'.of_error rfl⟩

end EndAlike

/-! ## Answers and errors of two steps -/

/-- A step that consists of two ends well if both do. -/
theorem step_bind_eq_ok {x : EStateM ε σ α} {f : α → EStateM ε σ β} {b : β} {s u : σ} :
    (x >>= f) s = .ok b u ↔ ∃ a t, x s = .ok a t ∧ f a t = .ok b u := by
  change EStateM.bind x f s = .ok b u ↔ _
  unfold EStateM.bind
  cases x s with
  | ok a t => exact ⟨fun h => ⟨a, t, rfl, h⟩, fun ⟨_, _, rfl, h⟩ => h⟩
  | error e t => simp

/-- A step that consists of two fails with the first, or with the second after the first. -/
theorem step_bind_eq_error {x : EStateM ε σ α} {f : α → EStateM ε σ β} {e : ε} {s u : σ} :
    (x >>= f) s = .error e u ↔ x s = .error e u ∨ ∃ a t, x s = .ok a t ∧ f a t = .error e u := by
  change EStateM.bind x f s = .error e u ↔ _
  unfold EStateM.bind
  cases x s with
  | ok a t =>
    constructor
    · exact fun h => .inr ⟨a, t, rfl, h⟩
    · rintro (h | ⟨_, _, ha, h⟩)
      · cases h
      · cases ha
        exact h
  | error e t => simp

theorem step_discard_eq_ok {x : EStateM ε σ α} {u : PUnit} {s t : σ} :
    (discard x : EStateM ε σ PUnit) s = .ok u t ↔ ∃ a, x s = .ok a t := by
  change EStateM.map (Function.const α PUnit.unit) x s = .ok u t ↔ _
  unfold EStateM.map
  cases x s with
  | ok a t => simp
  | error e t => simp

@[simp] theorem ok_bind (a : α) (f : α → Except ε β) : (Except.ok a >>= f) = f a := rfl

/-- Two computations without a state have an answer if the first has one from which the second has
it. -/
theorem bind_eq_ok {x : Except ε α} {f : α → Except ε β} {b : β} :
    (x >>= f) = .ok b ↔ ∃ a, x = .ok a ∧ f a = .ok b := by
  cases x with
  | ok a => simp [bind, Except.bind]
  | error e => simp [bind, Except.bind]

/-- Two computations without a state fail with the first, or with the second after the first. -/
theorem bind_eq_error {x : Except ε α} {f : α → Except ε β} {e : ε} :
    (x >>= f) = .error e ↔ x = .error e ∨ ∃ a, x = .ok a ∧ f a = .error e := by
  cases x with
  | ok a => simp [bind, Except.bind]
  | error e => simp [bind, Except.bind]

/-- Nothing changes if the answer is not used. -/
theorem discard_eq_ok {x : Except ε α} {u : PUnit} : discard x = .ok u ↔ ∃ a, x = .ok a := by
  cases x with
  | ok a => exact ⟨fun _ => ⟨a, rfl⟩, fun _ => rfl⟩
  | error e => exact ⟨(fun h => nomatch h), fun ⟨_, h⟩ => nomatch h⟩

theorem discard_eq_error {x : Except ε α} {e : ε} : discard x = .error e ↔ x = .error e := by
  cases x with
  | ok a => exact ⟨(fun h => nomatch h), fun h => nomatch h⟩
  | error e' => exact ⟨fun h => by cases h; rfl, fun h => by cases h; rfl⟩

theorem step_discard_eq_error {x : EStateM ε σ α} {e : ε} {s t : σ} :
    (discard x : EStateM ε σ PUnit) s = .error e t ↔ x s = .error e t := by
  change EStateM.map (Function.const α PUnit.unit) x s = .error e t ↔ _
  unfold EStateM.map
  cases x s with
  | ok a t => simp
  | error e t => simp

/-! ## One step after another -/

/-- Those of some elements whose steps succeed before the first that fails. -/
def completed (step : α → EStateM ε σ Unit) : List α → σ → List α
  | [], _ => []
  | a :: rest, s =>
    match step a s with
    | .ok () t => a :: completed step rest t
    | .error _ _ => []

/-- All steps together lead where those that are completed do, and further with a step that fails. -/
theorem stateAfter_forM {step : α → EStateM ε σ Unit} {R : List α → σ → σ → Prop}
    (hnil : ∀ s, R [] s s) (herror : ∀ {a s e t}, step a s = .error e t → R [] s t)
    (hok : ∀ {a s t done u}, step a s = .ok () t → R done t u → R (a :: done) s u)
    (steps : List α) (s : σ) : R (completed step steps s) s (stateAfter (forM steps step) s) := by
  induction steps generalizing s with
  | nil => exact hnil s
  | cons a rest ih =>
    rw [List.forM_cons]
    change R _ s (stateAfter (EStateM.bind (step a) _) s)
    unfold completed stateAfter EStateM.bind
    cases hr : step a s with
    | ok _ t => exact hok hr (ih t)
    | error e t => exact herror hr

end ListScript
