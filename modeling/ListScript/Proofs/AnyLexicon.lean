import ListScript.Proofs.CursorProtocol

/-!
# Streams of any lexicon

A lexicon may have any texts for words and symbols, the empty text among them, and give them any
kinds, that of the end of the text among them. Its streams have no defects all the same: a symbol of
its pattern is in its table, and a numeral of the pattern can be read. What it may do to a stream is
to let it stand still, at a symbol that is empty.

* `TokenStream.Fitting lexicon s` : `s` is a stream of the lexicon; every step keeps it
  (`Fitting.ends_advance`), and so does every call (`Fitting.call`, `Fitting.after`);
* `Fitting.log_ne_defect` : no call meets a defect;
* `TokenStream.Stuck` : a step leads nowhere;
* `Reader.Supplied.ends_significant_size` : moving past a lexeme uses up characters, or it could go on
  for ever; `Fitting.symbol?_of_stuck`, where the empty text is a symbol;
* `TokenStream.Within j` : at most `j` tokens are left, if the stream does not stand still;
* `Fitting.within_of_advance` : a step leaves one token less.
-/

namespace ListScript

/-! ## Lexemes that may be empty -/

/-- A lexeme that is empty is a symbol. -/
theorem Pattern.category_of_empty {p : Pattern} {text : List Char} {lexeme : Lexeme}
    (h : p.lexeme? text = some lexeme) (hempty : lexeme.text = []) : lexeme = ⟨[], none⟩ := by
  have hlength : lexeme.text.length = 0 := by rw [hempty]; rfl
  unfold lexeme? at h
  split at h
  · next hw =>
    cases h
    exact absurd hlength (Nat.ne_of_gt (Category.length_pos_of_word? hw))
  · split at h
    · next hn =>
      cases h
      exact absurd hlength (Nat.ne_of_gt (Category.length_pos_of_numeral? hn))
    · split at h
      · next hb =>
        cases h
        exact absurd hlength (Nat.ne_of_gt (Category.length_pos_of_blank? hb))
      · split at h
        · cases h
          exact congrArg (Lexeme.mk · none) hempty
        · cases h

namespace Reader

variable {r s t : Reader}

/-- Past a lexeme that is empty there is the same lexeme again. -/
theorem significant_of_empty {lexeme : Lexeme} (h : take s = .ok () t) (hrest : s.rest ≠ [])
    (hlexeme : s.pattern.lexeme? s.rest = some lexeme) (hempty : lexeme.text = [])
    (hblank : t.category ≠ some .blank) : significant t = .ok true t := by
  have ht : t = { s with last := some lexeme, span := ⟨s.position, s.position⟩ } := by
    unfold take at h
    rw [hlexeme] at h
    cases h
    simp only [hempty, List.length_nil, List.drop_zero, Nat.add_zero, position]
  have hagain : take t = .ok () t := by
    unfold take
    rw [ht]
    simp only [hlexeme, hempty, List.length_nil, List.drop_zero, Nat.add_zero, position]
  have hmore : more t = .ok true t := more_of_rest (by rw [ht]; exact hrest)
  rw [significant_of_ok hmore hagain, if_neg hblank]

/-- Moving past separators and a lexeme uses up characters, unless the lexeme is empty. Then there
are some left, and moving on leads nowhere. -/
theorem Supplied.ends_significant_size (h : r.Supplied) : Ends
    (fun found t => found = true → t.size < r.size ∨
      t.last = some ⟨[], none⟩ ∧ 0 < t.size ∧ t.size ≤ r.size ∧ significant t = .ok true t)
    (fun _ _ => True) (significant r) := by
  fun_induction significant r with
  | case1 => exact .error trivial
  | case2 => exact .ok (absurd · Bool.false_ne_true)
  | case3 => exact .error trivial
  | case4 r s hm t ht hb hlt ih =>
    obtain ⟨hs, hrest⟩ := h.ends_more.of_ok hm
    refine (ih ((hs.ends_take (hrest rfl)).of_ok ht)).mono (fun found u hu hfound => ?_) fun _ _ h => h
    obtain hless | ⟨hlast, hpos, hle, hu⟩ := hu hfound
    · exact .inl (Nat.lt_trans hless hlt)
    · exact .inr ⟨hlast, hpos, Nat.le_trans hle (Nat.le_of_lt hlt), hu⟩
  | case5 r s hm t ht hb =>
    obtain ⟨hs, hrest⟩ := h.ends_more.of_ok hm
    have hle : s.size ≤ r.size := size_of_more hm
    have htake := ht
    unfold take at htake
    split at htake
    · next lexeme hlexeme =>
      refine .ok fun _ => ?_
      by_cases hempty : lexeme.text = []
      · have hsize : t.size = s.size := by
          cases htake
          simp only [size, hempty, List.length_nil, List.drop_zero]
        have hpos : 0 < s.rest.length := List.length_pos_of_ne_nil (hrest rfl)
        have hagain := significant_of_empty ht (hrest rfl) hlexeme hempty hb
        refine .inr ⟨?_, ?_, hsize ▸ hle, hagain⟩
        · cases htake
          exact congrArg some (Pattern.category_of_empty hlexeme hempty)
        · rw [hsize, size]
          omega
      · have hpos : 0 < lexeme.text.length := List.length_pos_of_ne_nil hempty
        have hprefix := (Pattern.prefix_of_lexeme? hlexeme).length_le
        left
        cases htake
        simp only [size, List.length_drop] at hle ⊢
        omega
    · split at htake <;> cases htake

end Reader

namespace TokenStream

variable {lexicon : Lexicon} {s u : TokenStream} {k : Kind} {t : Token}

/-! ## Steps -/

/-- A stream of the lexicon over a source without empty lines. At its end there is no token at hand
but the one that ends the text. -/
structure Fitting (lexicon : Lexicon) (s : TokenStream) : Prop where
  lexicon_eq : s.lexicon = lexicon
  pattern_eq : s.reader.pattern = lexicon.pattern
  supplied : s.reader.Supplied
  kind_of_ended : s.ended = true → ∀ t, s.current = some t → t.kind = .endOfText

theorem fitting_ofSource (lexicon : Lexicon) {source : Source} (h : source.Delivers) :
    (ofSource lexicon source).Fitting lexicon := by
  refine ⟨rfl, rfl, fun source' heq => ?_, nofun⟩
  cases heq
  exact h

theorem Fitting.close (hs : s.Fitting lexicon) : s.close.Fitting lexicon :=
  ⟨hs.lexicon_eq, hs.pattern_eq, Reader.supplied_close s.reader, hs.kind_of_ended⟩

/-- A step gives a token or an error, and never meets a defect. -/
theorem Fitting.ends_advance (hs : s.Fitting lexicon) : Ends (fun _ u => u.Fitting lexicon)
    (fun stop u => u.Fitting lexicon ∧ ∃ e, stop = .error e) s.advance := by
  obtain rfl := hs.lexicon_eq
  cases hended : s.ended with
  | true =>
    rw [advance_of_ended hended]
    exact .error ⟨hs, _, rfl⟩
  | false =>
    have hpattern := Reader.pattern_significant s.reader
    have hsupplied := hs.supplied.ends_significant
    have hlast := Reader.last_of_significant s.reader
    rw [advance_eq_stepOn hended]
    cases hr : s.reader.significant with
    | ok found r =>
      have hr' : r.pattern = s.lexicon.pattern := (hpattern.of_ok hr).trans hs.pattern_eq
      cases found with
      | false =>
        refine .ok ⟨hs.lexicon_eq, hr', hsupplied.of_ok hr, fun _ t ht => ?_⟩
        cases ht
        rfl
      | true =>
        obtain ⟨lexeme, text, hlexeme, hfound, hblank⟩ := hlast.of_ok hr rfl
        rw [hr'] at hfound
        have hgoing : ∀ {P : Prop}, s.ended = true → P := fun h =>
          absurd (hended.symm.trans h) Bool.false_ne_true
        simp only [stepOn]
        cases htoken : s.lexicon.token r with
        | ok t => exact .ok ⟨hs.lexicon_eq, hr', hsupplied.of_ok hr, hgoing⟩
        | error stop =>
          refine .error ⟨⟨hs.lexicon_eq, hr', hsupplied.of_ok hr, hgoing⟩, ?_⟩
          cases stop with
          | error e => exact ⟨e, rfl⟩
          | defect defect => exact absurd htoken (Lexicon.token_ne_defect hlexeme hfound hblank)
    | error e r =>
      have hr' : r.pattern = s.lexicon.pattern := (hpattern.of_error hr).trans hs.pattern_eq
      obtain ⟨position, cause, rfl⟩ | ⟨hr'', text, position, rfl⟩ := hsupplied.of_error hr
      · exact .error ⟨⟨hs.lexicon_eq, hr', Reader.supplied_close r, fun _ _ ht => by cases ht⟩, _, rfl⟩
      · exact .error ⟨⟨hs.lexicon_eq, hr', hr'', fun _ _ ht => by cases ht⟩, _, rfl⟩

/-! ## Calls -/

/-- One call keeps a stream one of the lexicon, and meets no defect. -/
theorem Fitting.call (hs : s.Fitting lexicon) (c : Call) :
    (s.call c).2.Fitting lexicon ∧ ∀ stop, (s.call c).1 = .error stop → ∃ e, stop = .error e := by
  cases hc : c.isStep with
  | false =>
    refine ⟨?_, fun stop h => ?_⟩
    · cases c with
      | advance => cases hc
      | next => cases hc
      | close => exact hs.close
      | _ => exact hs
    · obtain ⟨e, rfl, -⟩ := call_eq_error hc h
      exact ⟨e, rfl⟩
  | true =>
    cases hended : s.ended with
    | true =>
      obtain hcall | hcall := call_of_ended hc hended
      · rw [hcall]
        exact ⟨hs, fun stop h => by cases h; exact ⟨_, rfl⟩⟩
      · rw [hcall]
        exact ⟨hs, nofun⟩
    | false =>
      have hstep := hs.ends_advance
      cases hadv : s.advance with
      | ok k u =>
        obtain ⟨t, ht, hk⟩ := current_of_advance hadv
        obtain ⟨reply, hcall, -⟩ := call_of_advance hc hended hadv ht hk
        rw [hcall]
        exact ⟨hstep.of_ok hadv, nofun⟩
      | error stop u =>
        obtain ⟨hu, e, rfl⟩ := hstep.of_error hadv
        rw [call_of_advance_error hc hended hadv]
        exact ⟨hu, fun stop h => by cases h; exact ⟨e, rfl⟩⟩

theorem Fitting.after (hs : s.Fitting lexicon) (calls : List Call) :
    (s.after calls).Fitting lexicon := by
  induction calls generalizing s with
  | nil => exact hs
  | cons c calls ih => exact ih (hs.call c).1

/-- The step from the token at hand leads to where it began. -/
structure Stuck (s : TokenStream) (t : Token) : Prop where
  ended : s.ended = false
  current : s.current = some t
  advance : s.advance = .ok t.kind s

/-- There are at most `j` tokens left, the one at hand among them unless it ends the text. Of a stream
that stands still there is one. -/
inductive Within (j : Nat) (s : TokenStream) : Prop
  | ended (h : s.ended = true)
  | stuck {t : Token} (h : s.Stuck t) (pos : 0 < j)
  | left (h : s.reader.size < j)

theorem Within.mono {i j : Nat} (h : s.Within i) (hij : i ≤ j) : s.Within j := by
  cases h with
  | ended h => exact .ended h
  | stuck h pos => exact .stuck h (by omega)
  | left h => exact .left (by omega)

theorem Within.pos {j : Nat} (h : s.Within j) (hended : s.ended = false) : 0 < j := by
  cases h with
  | ended h => exact absurd (hended.symm.trans h) nofun
  | stuck h pos => exact pos
  | left h => exact Nat.zero_lt_of_lt h

theorem within_size (s : TokenStream) : s.Within (s.reader.size + 1) := .left (Nat.lt_succ_self _)

/-- A step ends the text, or uses up characters, or leads to where the stream stands still. -/
theorem Fitting.advance_cases (hs : s.Fitting lexicon) (h : s.advance = .ok k u) :
    u.ended = true ∨ u.reader.size < s.reader.size ∨
      u.reader.last = some ⟨[], none⟩ ∧ 0 < s.reader.size ∧ ∃ t, u.Stuck t := by
  have hsize := hs.supplied.ends_significant_size
  obtain ⟨hended, ⟨r, hr, rfl, rfl⟩ | ⟨r, t, hr, ht, rfl, rfl⟩⟩ := advance_eq_ok.mp h
  · exact .inl rfl
  · obtain hless | ⟨hlast, hpos, hle, hagain⟩ := hsize.of_ok hr rfl
    · exact .inr (.inl hless)
    · refine .inr (.inr ⟨hlast, Nat.lt_of_lt_of_le hpos hle, t, hended, rfl, ?_⟩)
      exact advance_eq_ok.mpr ⟨hended, .inr ⟨r, t, hagain, ht, rfl, rfl⟩⟩

/-- A stream that stands still does so at a symbol that is empty. -/
theorem Fitting.symbol?_of_stuck (hs : s.Fitting lexicon) (h : s.Stuck t) :
    lexicon.symbol? "" = some t.kind := by
  obtain hended | hless | ⟨hlast, -⟩ := hs.advance_cases h.advance
  · exact absurd (h.ended.symm.trans hended) nofun
  · exact absurd hless (Nat.lt_irrefl _)
  · obtain ⟨-, ⟨r, -, -, hr⟩ | ⟨r, t', -, ht', hk, hr⟩⟩ := advance_eq_ok.mp h.advance
    · exact absurd (h.ended.symm.trans (congrArg ended hr)) nofun
    · obtain rfl : s.reader = r := congrArg reader hr
      have hcategory : s.reader.category = none := by rw [Reader.category, hlast]; rfl
      have htext : s.reader.text = "" := by rw [Reader.text, hlast]; rfl
      have htoken : lexicon.token s.reader = lexicon.symbolToken "" s.reader.span := by
        rw [Lexicon.token, hcategory, htext]
      rw [hs.lexicon_eq, htoken] at ht'
      unfold Lexicon.symbolToken at ht'
      split at ht'
      · next kind hkind =>
        cases ht'
        rw [hkind, hk]
      · cases ht'

/-- A step leaves one token less, unless it leads nowhere. -/
theorem Fitting.within_of_advance (hs : s.Fitting lexicon) {j : Nat} (hstuck : ∀ t, ¬ s.Stuck t)
    (h : s.advance = .ok k u) (hj : s.Within j) : u.Within (j - 1) := by
  obtain ⟨hended, -⟩ := advance_eq_ok.mp h
  cases hj with
  | ended h => exact absurd (hended.symm.trans h) nofun
  | stuck h => exact absurd h (hstuck _)
  | left hleft =>
    obtain hu | hless | ⟨-, hpos, t, ht⟩ := hs.advance_cases h
    · exact .ended hu
    · exact .left (by omega)
    · exact .stuck ht (by omega)

end TokenStream

end ListScript
