import ListScript.Proofs.Layout

/-!
# Blanks for other characters

* `Blanked` : a blank for a character that does not end the line; `Blanks` : for one that belongs to no
  word and is none itself;
* `Category.word?_append_blanked`, `Category.numeral?_append_blanked`,
  `Category.blank?_append_blanked`, `Pattern.find?_append_blanked` : no lexeme goes on or ends sooner
  for blanks behind it, unless it is a run of blanks (`Pattern.blanks_or_found`);
* `Pattern.none_of_blanked` : nor does one begin where none did;
* `Pattern.blanks_of_none` : a character with which no lexeme begins belongs to no word.
-/

namespace ListScript

/-- The same character, or a blank for one that does not end the line. -/
def Blanked (c c' : Char) : Prop := c' = c ∨ c' = ' ' ∧ c ≠ '\n'

namespace Blanked

variable {c c' : Char}

theorem refl (c : Char) : Blanked c c := .inl rfl

theorem eq_of_ne (h : Blanked c c') (hc' : c' ≠ ' ') : c' = c := h.resolve_right fun h => hc' h.1

/-- What belongs to a class without the blank did so before. -/
theorem mem_class (h : Blanked c c') {q : Char → Bool} (hq : q ' ' = false) (hc' : q c' = true) :
    q c = true := by
  rcases h with rfl | ⟨rfl, -⟩
  · exact hc'
  · rw [hq] at hc'
    cases hc'

/-- Line feeds stay where they are. -/
theorem lineFeed_eq (h : Blanked c c') : (c' == '\n') = (c == '\n') := by
  rcases h with rfl | ⟨rfl, hfeed⟩
  · rfl
  · exact (beq_eq_false_iff_ne.mpr hfeed).symm

theorem list_refl (line : List Char) : List.Forall₂ Blanked line line :=
  List.forall₂_same.mpr fun c _ => refl c

end Blanked

/-- The same character, or a blank for one that belongs to no word and is no blank. -/
def Blanks (c c' : Char) : Prop :=
  c' = c ∨ c' = ' ' ∧ isWordChar c = false ∧ Text.isSpace c = false

namespace Blanks

variable {c c' : Char}

theorem refl (c : Char) : Blanks c c := .inl rfl

theorem blanked (h : Blanks c c') : Blanked c c' := by
  refine h.imp_right fun ⟨heq, _, hspace⟩ => ⟨heq, ?_⟩
  rintro rfl
  cases hspace

theorem lineFeed_eq (h : Blanks c c') : (c' == '\n') = (c == '\n') := h.blanked.lineFeed_eq

theorem list_refl (line : List Char) : List.Forall₂ Blanks line line :=
  List.forall₂_same.mpr fun c _ => refl c

end Blanks

section Line

variable {line line' rest rest' : List Char}

/-- A run of characters of a class ends where it did. -/
theorem takeWhile_append_blanked {q : Char → Bool} {text : List Char}
    (hq : ∀ c c', Blanked c c' → q c' = true → q c = true) (h : List.Forall₂ Blanked rest rest')
    (htext : (text ++ rest).takeWhile q = text) : (text ++ rest').takeWhile q = text := by
  have hall : ∀ c ∈ text, q c = true := by
    intro c hc
    rw [← htext] at hc
    exact List.mem_takeWhile_imp hc
  refine Numeral.takeWhile_append_eq hall ?_
  rintro d' more' rfl
  cases h with
  | @cons d d' more more' hd _ =>
    rw [List.takeWhile_append_of_pos hall, List.append_right_eq_self, List.takeWhile_cons] at htext
    split at htext
    · cases htext
    · next hd' => exact Bool.eq_false_iff.mpr fun hmem => hd' (hq d d' hd hmem)

namespace Category

variable {c : Char} {text : List Char}

/-- A word ends where it did. -/
theorem word?_append_blanked (h : List.Forall₂ Blanked rest rest')
    (hfound : word? (c :: text ++ rest) = some (c :: text)) :
    word? (c :: text ++ rest') = some (c :: text) := by
  rw [List.cons_append, word?] at hfound ⊢
  split at hfound
  · next hletter =>
    rw [if_pos hletter, takeWhile_append_blanked (fun _ _ hc => hc.mem_class (by decide)) h
      (List.cons.inj (Option.some.inj hfound)).2]
  · cases hfound

theorem exists_numeral? {c : Char} (h : isDigit c = true) (rest : List Char) :
    ∃ found, numeral? (c :: rest) = some found := by
  by_cases hzero : c = '0'
  · subst hzero
    rcases rest with _ | ⟨b, _ | ⟨bit, more⟩⟩
    · exact ⟨_, rfl⟩
    · exact ⟨_, rfl⟩
    · rw [numeral?]
      split <;> exact ⟨_, rfl⟩
  · rw [numeral?_cons_of_ne_zero hzero, if_pos h]
    exact ⟨_, rfl⟩

/-- A zero that opens no binary numeral does not begin to. -/
theorem numeral?_zero_blanked (h : List.Forall₂ Blanked rest rest')
    (hfound : numeral? ('0' :: rest) = some ['0']) : numeral? ('0' :: rest') = some ['0'] := by
  cases h with
  | nil => rfl
  | @cons b b' rest rest' hb hrest =>
    cases hrest with
    | nil => rfl
    | @cons bit bit' more more' hbit _ =>
      rw [numeral?] at hfound ⊢
      refine if_neg fun hbinary => ?_
      rw [Bool.and_eq_true] at hbinary
      have hmark := hb.mem_class (q := fun c => c == 'b' || c == 'B') (by decide) hbinary.1
      have hsame := hbit.mem_class (q := isBit) (by decide) hbinary.2
      rw [if_pos (Bool.and_eq_true_iff.mpr ⟨hmark, hsame⟩)] at hfound
      exact absurd (Option.some.inj hfound) (by simp)

/-- A numeral ends where it did. -/
theorem numeral?_append_blanked (h : List.Forall₂ Blanked rest rest')
    (hfound : numeral? (c :: text ++ rest) = some (c :: text)) :
    numeral? (c :: text ++ rest') = some (c :: text) := by
  have hrun {q : Char → Bool} (hq : q ' ' = false) {text : List Char} :
      (text ++ rest).takeWhile q = text → (text ++ rest').takeWhile q = text :=
    takeWhile_append_blanked (fun _ _ hc => hc.mem_class hq) h
  by_cases hzero : c = '0'
  · subst hzero
    match text with
    | [] => exact numeral?_zero_blanked h hfound
    | [b] =>
      -- nothing of this length begins with a zero
      rw [List.cons_append, List.cons_append, List.nil_append] at hfound
      cases rest with
      | nil => cases hfound
      | cons bit more =>
        rw [numeral?] at hfound
        split at hfound
        · exact absurd (Option.some.inj hfound) (by simp)
        · cases hfound
    | b :: bit :: bits =>
      rw [List.cons_append, List.cons_append, List.cons_append, numeral?] at hfound ⊢
      split at hfound
      · next hbinary =>
        simp only [Option.some.injEq, List.cons.injEq, true_and] at hfound
        rw [if_pos hbinary, hrun (by decide) hfound]
      · cases hfound
  · rw [List.cons_append, numeral?_cons_of_ne_zero hzero] at hfound ⊢
    split at hfound
    · next hdigit =>
      rw [if_pos hdigit, hrun (by decide) (List.cons.inj (Option.some.inj hfound)).2]
    · cases hfound

/-- A separator goes up to where it did, unless it is a run of blanks. -/
theorem blank?_append_blanked (h : List.Forall₂ Blanked rest rest')
    (hfound : blank? (c :: text ++ rest) = some (c :: text)) :
    (∀ d ∈ c :: text, Text.isSpace d = true) ∨ blank? (c :: text ++ rest') = some (c :: text) := by
  by_cases hcomment : ∃ more, c :: text ++ rest = '/' :: '/' :: more
  · obtain ⟨more, heq⟩ := hcomment
    right
    rw [heq] at hfound
    obtain ⟨rfl, rfl⟩ := List.cons.inj (Option.some.inj hfound)
    have hmore : more.takeWhile (· != '\n') ++ rest = more := (List.cons.inj (List.cons.inj heq).2).2
    have hbody := takeWhile_append_blanked (q := (· != '\n'))
      (fun _ _ hc => by rw [bne, bne, hc.lineFeed_eq]; exact id) h
      (congrArg (List.takeWhile (· != '\n')) hmore)
    exact congrArg (fun body => some ('/' :: '/' :: body)) hbody
  · left
    have hno : ∀ more, c :: (text ++ rest) ≠ '/' :: '/' :: more :=
      fun more heq => hcomment ⟨more, heq⟩
    rw [List.cons_append, blank?_cons hno] at hfound
    split at hfound
    · next hc =>
      have htext : (text ++ rest).takeWhile Text.isSpace = text :=
        (List.cons.inj (Option.some.inj hfound)).2
      refine List.forall_mem_cons.mpr ⟨hc, fun d hd => ?_⟩
      rw [← htext] at hd
      exact List.mem_takeWhile_imp hd
    · cases hfound

/-- A blank at another place makes no separator of what is none. -/
theorem blank?_blanked (h : List.Forall₂ Blanked rest rest') (hnone : blank? (c :: rest) = none) :
    blank? (c :: rest') = none := by
  have hno : ∀ more, c :: rest ≠ '/' :: '/' :: more := by
    rintro more heq
    rw [heq] at hnone
    cases hnone
  have hno' : ∀ more, c :: rest' ≠ '/' :: '/' :: more := by
    rintro more heq
    obtain ⟨rfl, rfl⟩ := List.cons.inj heq
    cases h with
    | cons hd _ => exact hno _ (by rw [← hd.eq_of_ne (by decide)])
  rw [blank?_cons hno] at hnone
  rw [blank?_cons hno']
  split at hnone
  · cases hnone
  · next hspace => rw [if_neg hspace]

/-- A word shows in its first letter. -/
theorem word?_cons_eq_none (h : word? (c :: rest) = none) (other : List Char) :
    word? (c :: other) = none := by
  rw [word?] at h ⊢
  split at h
  · cases h
  · next hletter => exact if_neg hletter

/-- A numeral shows in its first digit. -/
theorem numeral?_cons_eq_none (h : numeral? (c :: rest) = none) (other : List Char) :
    numeral? (c :: other) = none := by
  cases hdigit : isDigit c with
  | false => exact Pattern.numeral?_of_not_digit hdigit
  | true =>
    obtain ⟨found, hfound⟩ := exists_numeral? hdigit rest
    rw [hfound] at h
    cases h

end Category

/-- What begins with a symbol without a blank still does if some blanks are taken back. -/
theorem isPrefixOf_blanked {symbol : List Char} (hsymbol : ' ' ∉ symbol)
    (h : List.Forall₂ Blanked line line') (hstarts : symbol.isPrefixOf line' = true) :
    symbol.isPrefixOf line = true := by
  induction h generalizing symbol with
  | nil => exact hstarts
  | @cons c c' line line' hc _ ih =>
    cases symbol with
    | nil => rfl
    | cons d symbol =>
      rw [List.mem_cons, not_or] at hsymbol
      rw [List.isPrefixOf_cons_cons, Bool.and_eq_true, beq_iff_eq] at hstarts
      obtain ⟨rfl, hstarts⟩ := hstarts
      rw [List.isPrefixOf_cons_cons, ← hc.eq_of_ne (Ne.symm hsymbol.1), beq_self_eq_true, Bool.true_and]
      exact ih hsymbol.2 hstarts

namespace Pattern

variable {p : Pattern}

/-- No symbol has a blank in it. -/
def Spaceless (p : Pattern) : Prop := ∀ symbol ∈ p.symbols, ' ' ∉ symbol.toList

theorem find?_append_blanked (hp : p.Spaceless) (h : List.Forall₂ Blanked rest rest')
    {symbol : String}
    (hfound : p.symbols.find? (fun other => other.toList.isPrefixOf (symbol.toList ++ rest)) =
      some symbol) :
    p.symbols.find? (fun other => other.toList.isPrefixOf (symbol.toList ++ rest')) =
      some symbol := by
  obtain ⟨-, earlier, later, hsymbols, hearlier⟩ := List.find?_eq_some_iff_append.mp hfound
  refine List.find?_eq_some_iff_append.mpr ⟨?_, earlier, later, hsymbols, fun other hother => ?_⟩
  · exact List.isPrefixOf_iff_prefix.mpr (List.prefix_append _ _)
  · have hmem : other ∈ p.symbols := by
      rw [hsymbols]
      exact List.mem_append_left _ hother
    have hnot := hearlier other hother
    rw [Bool.not_eq_true', Bool.eq_false_iff] at hnot ⊢
    exact fun hstarts => hnot (isPrefixOf_blanked (hp other hmem)
      (List.rel_append (Blanked.list_refl _) h) hstarts)

/-- With blanks further on, a text begins with the same lexeme, or that is a run of blanks. -/
theorem blanks_or_found (hp : p.Proper) (hspace : p.Spaceless) {lexeme : Lexeme}
    (h : List.Forall₂ Blanked rest rest')
    (hfound : p.lexeme? (lexeme.text ++ rest) = some lexeme) :
    lexeme.category = some .blank ∧ (∀ c ∈ lexeme.text, Text.isSpace c = true) ∨
      p.lexeme? (lexeme.text ++ rest') = some lexeme := by
  obtain ⟨c, text, htext⟩ := List.exists_cons_of_length_pos (hp.length_pos hfound)
  have hline : List.Forall₂ Blanked (text ++ rest) (text ++ rest') :=
    List.rel_append (Blanked.list_refl _) h
  unfold lexeme? at hfound ⊢
  rw [htext] at hfound ⊢
  split at hfound
  · next found hword =>
    cases hfound
    obtain rfl : found = c :: text := htext
    exact .inr (by rw [Category.word?_append_blanked h hword])
  next hword =>
  split at hfound
  · next found hnumeral =>
    cases hfound
    obtain rfl : found = c :: text := htext
    right
    rw [List.cons_append, Category.word?_cons_eq_none hword, ← List.cons_append,
      Category.numeral?_append_blanked h hnumeral]
  next hnumeral =>
  split at hfound
  · next found hblank =>
    cases hfound
    obtain rfl : found = c :: text := htext
    refine (Category.blank?_append_blanked h hblank).imp (fun hrun => ⟨rfl, hrun⟩) fun hfound' => ?_
    rw [List.cons_append, Category.word?_cons_eq_none hword, Category.numeral?_cons_eq_none hnumeral,
      ← List.cons_append, hfound']
  next hblank =>
  split at hfound
  · next symbol hsymbol =>
    cases hfound
    right
    rw [List.cons_append, Category.word?_cons_eq_none hword, Category.numeral?_cons_eq_none hnumeral,
      Category.blank?_blanked hline hblank, ← List.cons_append]
    have htext : symbol.toList = c :: text := htext
    rw [← htext] at hsymbol ⊢
    rw [find?_append_blanked hspace h hsymbol]
  · cases hfound

/-- Where no lexeme began, none begins with blanks further on. -/
theorem none_of_blanked (hspace : p.Spaceless) {c : Char} (h : List.Forall₂ Blanked rest rest')
    (hnone : p.lexeme? (c :: rest) = none) : p.lexeme? (c :: rest') = none := by
  unfold lexeme? at hnone ⊢
  split at hnone
  · cases hnone
  next hword =>
  split at hnone
  · cases hnone
  next hnumeral =>
  split at hnone
  · cases hnone
  next hblank =>
  split at hnone
  · cases hnone
  next hsymbol =>
  rw [Category.word?_cons_eq_none hword, Category.numeral?_cons_eq_none hnumeral,
    Category.blank?_blanked h hblank]
  have hsymbol' : p.symbols.find? (fun symbol => symbol.toList.isPrefixOf (c :: rest')) = none := by
    rw [List.find?_eq_none] at hsymbol ⊢
    intro symbol hmem hstarts
    exact hsymbol symbol hmem
      (isPrefixOf_blanked (hspace symbol hmem) (.cons (.refl c) h) hstarts)
  rw [hsymbol']

/-- No lexeme begins with a malformed character, and so it belongs to no word and is no blank. -/
theorem blanks_of_none {c : Char} (h : p.lexeme? (c :: rest) = none) : Blanks c ' ' := by
  unfold lexeme? at h
  have hletter : isLetter c = false := by
    refine Bool.eq_false_iff.mpr fun hletter => ?_
    rw [Category.word?, if_pos hletter] at h
    cases h
  rw [word?_of_not_letter hletter] at h
  have hdigit : isDigit c = false := by
    refine Bool.eq_false_iff.mpr fun hdigit => ?_
    obtain ⟨found, hfound⟩ := Category.exists_numeral? hdigit rest
    rw [hfound] at h
    cases h
  have hspace : Text.isSpace c = false := by
    refine Bool.eq_false_iff.mpr fun hspace => ?_
    have hblank := lexeme?_blank (p := p) hspace rest
    rw [lexeme?, word?_of_not_letter hletter] at hblank
    rw [hblank] at h
    cases h
  exact .inr ⟨rfl, by rw [isWordChar, hletter, hdigit]; rfl, hspace⟩

end Pattern

end Line

end ListScript
