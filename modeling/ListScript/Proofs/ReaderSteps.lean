import ListScript.Proofs.Ends
import ListScript.Token.Lexicon
import ListScript.Token.Stream

/-!
# Steps of a reader

* `Pattern.Proper` : no symbol of the pattern is empty, so that no lexeme is
  (`Pattern.Proper.length_pos`); `Lexicon.proper_standard` : that of the language is proper;
* `Pattern.prefix_of_lexeme?` : a text begins with its first lexeme;
* `Reader.pattern_more`, `Reader.pattern_take`, `Reader.pattern_significant` : no step changes the
  pattern;
* `Reader.size_of_take_of_proper`, `Reader.size_of_significant` : a lexeme uses up characters.
-/

namespace ListScript

/-! ## Lexemes that are not empty -/

/-- No symbol is the empty text. -/
def Pattern.Proper (p : Pattern) : Prop := "" ∉ p.symbols

theorem Pattern.proper_ofSymbols {symbols : List String} (h : "" ∉ symbols) :
    (Pattern.ofSymbols symbols).Proper := by
  intro hmem
  exact h (List.mem_mergeSort.mp hmem)

/-- The symbols of the language are not empty. -/
theorem Lexicon.proper_standard : Lexicon.standard.pattern.Proper :=
  Pattern.proper_ofSymbols (by decide)

/-- A word begins with its letter. -/
theorem Category.length_pos_of_word? {text found : List Char} (h : word? text = some found) :
    0 < found.length := by
  unfold word? at h
  split at h
  · cases h
  · split at h
    · cases h; exact Nat.succ_pos _
    · cases h

/-- A numeral has a digit. -/
theorem Category.length_pos_of_numeral? {text found : List Char} (h : numeral? text = some found) :
    0 < found.length := by
  unfold numeral? at h
  split at h
  · cases h
  · split at h
    · split at h <;> cases h <;> exact Nat.succ_pos _
    · cases h; exact Nat.succ_pos _
  · split at h
    · cases h; exact Nat.succ_pos _
    · cases h

namespace Pattern

variable {p : Pattern} {text : List Char} {lexeme : Lexeme}

/-- No lexeme is empty. -/
theorem Proper.length_pos (hp : p.Proper) (h : p.lexeme? text = some lexeme) :
    0 < lexeme.text.length := by
  unfold lexeme? at h
  split at h
  · next hw => cases h; exact Category.length_pos_of_word? hw
  · split at h
    · next hn => cases h; exact Category.length_pos_of_numeral? hn
    · split at h
      · next hb => cases h; exact Category.length_pos_of_blank? hb
      · split at h
        · next symbol hs =>
          cases h
          have hmem : symbol ∈ p.symbols := List.mem_of_find?_eq_some hs
          rw [List.length_pos_iff]
          intro hnil
          obtain rfl : symbol = "" := String.toList_eq_nil_iff.mp hnil
          exact hp hmem
        · cases h

end Pattern

/-! ## Lexemes stand where the text begins -/

/-- A word stands at the beginning. -/
theorem Category.prefix_of_word? {text found : List Char} (h : word? text = some found) :
    found <+: text := by
  unfold word? at h
  split at h
  · cases h
  · split at h
    · cases h; exact (List.cons_prefix_cons).mpr ⟨rfl, List.takeWhile_prefix _⟩
    · cases h

/-- A numeral stands at the beginning. -/
theorem Category.prefix_of_numeral? {text found : List Char} (h : numeral? text = some found) :
    found <+: text := by
  unfold numeral? at h
  split at h
  · cases h
  · split at h
    · split at h
      · cases h
        simp only [List.cons_prefix_cons, true_and]
        exact List.takeWhile_prefix _
      · cases h; exact ⟨_, rfl⟩
    · cases h; exact ⟨_, rfl⟩
  · split at h
    · cases h; exact (List.cons_prefix_cons).mpr ⟨rfl, List.takeWhile_prefix _⟩
    · cases h

/-- A separator stands at the beginning. -/
theorem Category.prefix_of_blank? {text found : List Char} (h : blank? text = some found) :
    found <+: text := by
  unfold blank? at h
  split at h
  · cases h
    simp only [List.cons_prefix_cons, true_and]
    exact List.takeWhile_prefix _
  · split at h
    · cases h; exact (List.cons_prefix_cons).mpr ⟨rfl, List.takeWhile_prefix _⟩
    · cases h
  · cases h

/-- A lexeme stands at the beginning of the text. -/
theorem Pattern.prefix_of_lexeme? {p : Pattern} {text : List Char} {lexeme : Lexeme}
    (h : p.lexeme? text = some lexeme) : lexeme.text <+: text := by
  unfold lexeme? at h
  split at h
  · next hw => cases h; exact Category.prefix_of_word? hw
  · split at h
    · next hn => cases h; exact Category.prefix_of_numeral? hn
    · split at h
      · next hb => cases h; exact Category.prefix_of_blank? hb
      · split at h
        · next symbol hs =>
          cases h
          have hfound := List.find?_some hs
          exact List.isPrefixOf_iff_prefix.mp hfound
        · cases h

/-! ## Steps -/

namespace Reader

/-- Reading on keeps the pattern. -/
theorem pattern_more (r : Reader) : Ends (fun _ s => s.pattern = r.pattern)
    (fun _ s => s.pattern = r.pattern) (more r) := by
  unfold more
  split
  · exact .ok rfl
  · split
    · exact .ok rfl
    · split
      · exact .ok rfl
      · exact .ok rfl
      · exact .error rfl

/-- Moving past a lexeme keeps the pattern. -/
theorem pattern_take (r : Reader) : Ends (fun _ s => s.pattern = r.pattern)
    (fun _ s => s.pattern = r.pattern) (take r) := by
  unfold take
  split
  · exact .ok rfl
  · split
    · exact .error rfl
    · exact .error rfl

/-- Moving past separators and a lexeme keeps the pattern. -/
theorem pattern_significant (r : Reader) : Ends (fun _ s => s.pattern = r.pattern)
    (fun _ s => s.pattern = r.pattern) (significant r) := by
  fun_induction significant r with
  | case1 r e s hm => exact .error ((pattern_more r).of_error hm)
  | case2 r s hm => exact .ok ((pattern_more r).of_ok hm)
  | case3 r s hm e t ht =>
    exact .error (((pattern_take s).of_error ht).trans ((pattern_more r).of_ok hm))
  | case4 r s hm t ht hb hlt ih =>
    have ht : t.pattern = r.pattern := ((pattern_take s).of_ok ht).trans ((pattern_more r).of_ok hm)
    exact ih.mono (fun _ _ h => h.trans ht) (fun _ _ h => h.trans ht)
  | case5 r s hm t ht hb => exact .ok (((pattern_take s).of_ok ht).trans ((pattern_more r).of_ok hm))

/-- Moving past a lexeme leaves less. -/
theorem size_of_take_of_proper {r s : Reader} (hp : r.pattern.Proper) (h : take r = .ok () s) :
    s.size < r.size := by
  unfold take at h
  split at h
  · next lexeme hl =>
    cases h
    have hpos := hp.length_pos hl
    have hle := (Pattern.prefix_of_lexeme? hl).length_le
    simp only [size, List.length_drop]
    omega
  · split at h <;> cases h

/-- Moving past separators and a lexeme leaves less; at the end there is nothing to move past. -/
theorem size_of_significant {r : Reader} (hp : r.pattern.Proper) :
    Ends (fun found s => if found then s.size < r.size else s.size ≤ r.size) (fun _ _ => True)
      (significant r) := by
  fun_induction significant r with
  | case1 r e s hm => exact .error trivial
  | case2 r s hm => exact .ok (size_of_more hm)
  | case3 r s hm e t ht => exact .error trivial
  | case4 r s hm t ht hb hlt ih =>
    have hs : s.pattern = r.pattern := (pattern_more r).of_ok hm
    have ht : t.pattern = s.pattern := (pattern_take s).of_ok ht
    refine (ih (by rw [ht, hs]; exact hp)).mono (fun found u hu => ?_) (fun _ _ h => h)
    cases found with
    | false => exact Nat.le_trans hu (Nat.le_of_lt hlt)
    | true => exact Nat.lt_trans hu hlt
  | case5 r s hm t ht hb =>
    have hs : s.pattern = r.pattern := (pattern_more r).of_ok hm
    refine .ok ?_
    exact Nat.lt_of_lt_of_le (size_of_take_of_proper (by rw [hs]; exact hp) ht) (size_of_more hm)

end Reader

end ListScript
