import ListScript.Token.Numeral
import Mathlib.Data.List.TakeWhile
import Mathlib.Tactic.IntervalCases

/-!
# Numerals denote numbers

* `Numeral.value?_eq`, `Numeral.denoted?_of_digits` : the number that digits denote;
* `Numeral.exists_denoted?` : every numeral that a text can begin with denotes a number;
* `Numeral.denoted?_toDigits`, `Numeral.numeral?_toDigits` : the digits of a number denote it, and are
  read as a numeral.
-/

namespace ListScript.Numeral

/-- A run of elements ends where one comes that does not belong to it. -/
theorem takeWhile_append_eq {α : Type} {p : α → Bool} {xs rest : List α} (h : ∀ x ∈ xs, p x = true)
    (hrest : ∀ x ys, rest = x :: ys → p x = false) : (xs ++ rest).takeWhile p = xs := by
  rw [List.takeWhile_append_of_pos h]
  cases rest with
  | nil => simp
  | cons x ys => simp [hrest x ys rfl]

theorem digit?_eq_some {base d : Nat} {c : Char} (h : digit? base c = some d) :
    d = c.toNat - '0'.toNat := by
  unfold digit? at h
  split at h
  · exact (Option.some.inj h).symm
  · cases h

/-- Digits that the base has denote the number that they are written for. -/
theorem value?_eq {base : Nat} {digits : List Char} (hne : digits ≠ [])
    (h : ∀ c ∈ digits, (digit? base c).isSome) :
    value? base digits = some (Nat.ofDigitChars base digits 0) := by
  have hfold : ∀ (cs : List Char) (n : Nat), (∀ c ∈ cs, (digit? base c).isSome) →
      cs.foldlM (fun n c => (digit? base c).map fun d => n * base + d) n =
        some (Nat.ofDigitChars base cs n) := by
    intro cs
    induction cs with
    | nil => exact fun n _ => by rw [Nat.ofDigitChars_nil]; rfl
    | cons c cs ih =>
      intro n hcs
      obtain ⟨d, hd⟩ := Option.isSome_iff_exists.mp (hcs c List.mem_cons_self)
      rw [List.foldlM_cons, hd, Option.map_some]
      change cs.foldlM _ (n * base + d) = _
      rw [ih _ fun c' hc' => hcs c' (List.mem_cons_of_mem _ hc'), Nat.ofDigitChars_cons,
        digit?_eq_some hd, Nat.mul_comm]
  cases digits with
  | nil => exact absurd rfl hne
  | cons c cs => exact hfold (c :: cs) 0 h

theorem isSome_digit?_ten {c : Char} (h : isDigit c = true) : (digit? 10 c).isSome := by
  simp only [isDigit, Bool.and_eq_true, decide_eq_true_eq] at h
  have hle : c.toNat ≤ '9'.toNat := h.2
  have hlt : c.toNat - '0'.toNat < 10 := by
    have : '9'.toNat = 57 := rfl
    have : '0'.toNat = 48 := rfl
    omega
  rw [digit?, if_pos (by simpa [isDigit, h] using hlt)]
  rfl

theorem isSome_digit?_two {c : Char} (h : isBit c = true) : (digit? 2 c).isSome := by
  simp only [isBit, Bool.or_eq_true, beq_iff_eq] at h
  rcases h with rfl | rfl <;> decide

/-- A decimal digit is no letter. -/
theorem ne_b_of_isDigit {c : Char} (h : isDigit c = true) : (c == 'b' || c == 'B') = false := by
  rw [Bool.or_eq_false_iff, beq_eq_false_iff_ne, beq_eq_false_iff_ne]
  constructor <;> rintro rfl <;> exact absurd h (by decide)

/-- What is written in decimal digits denotes its number. -/
theorem denoted?_of_digits {digits : List Char} (hne : digits ≠ [])
    (h : ∀ c ∈ digits, isDigit c = true) :
    denoted? digits = some (Nat.ofDigitChars 10 digits 0) := by
  have hvalue : value? 10 digits = some (Nat.ofDigitChars 10 digits 0) :=
    value?_eq hne fun c hc => isSome_digit?_ten (h c hc)
  match digits with
  | [] => exact absurd rfl hne
  | [_] => exact hvalue
  | c :: c' :: cs =>
    have hc' : isDigit c' = true := h c' (by simp)
    rw [denoted?, if_neg (by rw [ne_b_of_isDigit hc']; decide)]
    exact hvalue

/-- A numeral denotes a number. -/
theorem exists_denoted? {text found : List Char} (h : Category.numeral? text = some found) :
    ∃ n, denoted? found = some n := by
  unfold Category.numeral? at h
  split at h
  · cases h
  · split at h
    · split at h
      · next hbit =>
        cases h
        rw [Bool.and_eq_true] at hbit
        rw [denoted?, if_pos hbit.1]
        refine ⟨_, value?_eq (List.cons_ne_nil _ _) fun c hc => isSome_digit?_two ?_⟩
        obtain rfl | hc := List.mem_cons.mp hc
        · exact hbit.2
        · exact List.mem_takeWhile_imp hc
      · cases h
        exact ⟨0, rfl⟩
    · cases h
      exact ⟨0, rfl⟩
  · split at h
    · next hdigit =>
      cases h
      refine ⟨_, denoted?_of_digits (List.cons_ne_nil _ _) fun c hc => ?_⟩
      obtain rfl | hc := List.mem_cons.mp hc
      · exact hdigit
      · exact List.mem_takeWhile_imp hc
    · cases h

/-! ## The digits of a number -/

theorem isDigit_of_mem_toDigits {c : Char} {n : Nat} (h : c ∈ Nat.toDigits 10 n) :
    isDigit c = true := by
  have hc := Nat.isDigit_of_mem_toDigits (by decide) (by decide) h
  simp only [Char.isDigit, Bool.and_eq_true, decide_eq_true_eq] at hc
  simp only [isDigit, Bool.and_eq_true, decide_eq_true_eq]
  exact hc

/-- The digits of a number denote it. -/
theorem denoted?_toDigits (n : Nat) : denoted? (Nat.toDigits 10 n) = some n := by
  rw [denoted?_of_digits Nat.toDigits_ne_nil fun _ => isDigit_of_mem_toDigits,
    Nat.ofDigitChars_ten_toDigits]

/-- Only zero is written with a zero in front. -/
theorem head_toDigits_ne_zero {n : Nat} (hn : 0 < n) : ∃ c cs, Nat.toDigits 10 n = c :: cs ∧
    c ≠ '0' := by
  induction n using Nat.strongRecOn with
  | ind n ih =>
    rw [Nat.toDigits_eq_if (by decide)]
    split
    · next hlt =>
      refine ⟨_, [], rfl, ?_⟩
      interval_cases n <;> decide
    · next hge =>
      obtain ⟨c, cs, hdigits, hc⟩ := ih (n / 10) (by omega) (by omega)
      exact ⟨c, cs ++ [(n % 10).digitChar], by rw [hdigits]; rfl, hc⟩

/-- A text that begins with the digits of a number, and goes on with neither a letter nor a digit,
begins with just this numeral. -/
theorem numeral?_toDigits (n : Nat) {rest : List Char}
    (hrest : ∀ c cs, rest = c :: cs → isWordChar c = false) :
    Category.numeral? (Nat.toDigits 10 n ++ rest) = some (Nat.toDigits 10 n) := by
  obtain rfl | hn := Nat.eq_zero_or_pos n
  · rw [Nat.toDigits_zero, List.singleton_append]
    match rest with
    | [] => rfl
    | [_] => rfl
    | b :: c :: more =>
      have hb : (b == 'b' || b == 'B') = false := by
        rw [Bool.or_eq_false_iff, beq_eq_false_iff_ne, beq_eq_false_iff_ne]
        constructor <;> rintro rfl <;> exact absurd (hrest _ _ rfl) (by decide)
      rw [Category.numeral?, hb]
      rfl
  · obtain ⟨c, cs, hdigits, hc⟩ := head_toDigits_ne_zero hn
    have hall : ∀ c' ∈ c :: cs, isDigit c' = true := by
      rw [← hdigits]
      exact fun _ => isDigit_of_mem_toDigits
    have htail : (cs ++ rest).takeWhile isDigit = cs :=
      takeWhile_append_eq (fun c' hc' => hall c' (List.mem_cons_of_mem _ hc')) fun c' cs' hrest' => by
        have := hrest c' cs' hrest'
        rw [isWordChar, Bool.or_eq_false_iff] at this
        exact this.2
    rw [hdigits, List.cons_append]
    unfold Category.numeral?
    split
    · next heq => cases heq
    · next heq =>
      cases heq
      exact absurd rfl hc
    · next heq =>
      cases heq
      rw [if_pos (hall c List.mem_cons_self), htail]

end ListScript.Numeral
