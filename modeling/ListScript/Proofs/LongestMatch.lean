import ListScript.Proofs.Spelling

/-!
# The longest match

The lexemes are tried one kind after the other and the symbols in a fixed order, and the first that fits
is taken. It is also the longest: the symbols are tried by their length, and of the other kinds at most
one fits.

* `Text.one`, `Text.many`, `Category.language` : the texts of a category, as its regular expression says;
* `Text.Begins`, `Text.Longest` : whether a text begins with one of a language, and with which one that
  is the longest (`Text.Longest.unique`);
* `Category.longestIs_lexeme?` : what is found of a category is the longest;
* `Pattern.longestIs_find?` : the first symbol that fits is the longest, in whatever order the symbols
  are listed (`Pattern.lexeme?_congr`);
* `Reader.FindsLongest`, `longest_match` : what a reader finds.
-/

namespace ListScript

/-! ## Languages -/

namespace Text

/-- The texts of one character of a class. -/
def one (p : Char → Bool) : Language Char := {text | ∃ c, p c = true ∧ text = [c]}

/-- The texts of any number of characters of a class. -/
def many (p : Char → Bool) : Language Char := {text | ∀ c ∈ text, p c = true}

/-- Some text of a language stands at the beginning. -/
def Begins (L : Language Char) (text : List Char) : Prop := ∃ found ∈ L, found <+: text

/-- The longest text of a language that stands at the beginning. -/
structure Longest (L : Language Char) (text found : List Char) : Prop where
  mem : found ∈ L
  begins : found <+: text
  longest : ∀ other ∈ L, other <+: text → other.length ≤ found.length

/-- What is found is the longest text of a language, and nothing only if there is none. -/
inductive LongestIs (L : Language Char) (text : List Char) : Option (List Char) → Prop
  | some {found : List Char} (h : Longest L text found) : LongestIs L text (some found)
  | none (h : ¬ Begins L text) : LongestIs L text none

variable {L M : Language Char} {text found : List Char} {c : Char} {p q : Char → Bool}

/-- There is no other. -/
theorem Longest.unique {found' : List Char} (h : Longest L text found) (h' : Longest L text found') :
    found = found' :=
  (List.prefix_of_prefix_length_le h.begins h'.begins
    (h'.longest found h.mem h.begins)).eq_of_length_le (h.longest found' h'.mem h'.begins)

theorem Longest.begins_language (h : Longest L text found) : Begins L text :=
  ⟨found, h.mem, h.begins⟩

theorem LongestIs.longest_of_some (h : LongestIs L text (.some found)) : Longest L text found := by
  cases h with
  | some h => exact h

theorem LongestIs.not_begins_of_none (h : LongestIs L text .none) : ¬ Begins L text := by
  cases h with
  | none h => exact h

theorem LongestIs.unique {found? found?' : Option (List Char)} (h : LongestIs L text found?)
    (h' : LongestIs L text found?') : found? = found?' := by
  cases h with
  | some h =>
    cases h' with
    | some h' => rw [h.unique h']
    | none h' => exact absurd h.begins_language h'
  | none h =>
    cases h' with
    | some h' => exact absurd h'.begins_language h
    | none h' => rfl

/-! ### One text after the other -/

/-- Characters of a class go on as far as they can. -/
theorem longest_many (q : Char → Bool) (text : List Char) :
    Longest (many q) text (text.takeWhile q) := by
  refine ⟨fun _ hc => List.mem_takeWhile_imp hc, List.takeWhile_prefix q, ?_⟩
  rintro other hmem ⟨rest, rfl⟩
  rw [List.takeWhile_append_of_pos hmem, List.length_append]
  exact Nat.le_add_right _ _

theorem longest_one (hc : p c = true) (text : List Char) : Longest (one p) (c :: text) [c] := by
  refine ⟨⟨c, hc, rfl⟩, ⟨text, rfl⟩, ?_⟩
  rintro _ ⟨d, -, rfl⟩ -
  exact Nat.le_refl 1

/-- A character in front of all texts stands in front of the longest. -/
theorem Longest.cons (h : Longest L text found) (hc : p c = true) :
    Longest (one p * L) (c :: text) (c :: found) := by
  have hone : [c] ∈ one p := ⟨c, hc, rfl⟩
  refine ⟨Language.append_mem_mul hone h.mem, ?_, ?_⟩
  · exact List.cons_prefix_cons.mpr ⟨rfl, h.begins⟩
  · intro other hmem hbegins
    obtain ⟨_, ⟨d, -, rfl⟩, more, hmore, rfl⟩ := Language.mem_mul.mp hmem
    have hle := h.longest more hmore (List.cons_prefix_cons.mp hbegins).2
    simpa using hle

theorem begins_cons_iff : Begins (one p * L) (c :: text) ↔ p c = true ∧ Begins L text := by
  constructor
  · rintro ⟨found, hmem, hbegins⟩
    obtain ⟨_, ⟨d, hd, rfl⟩, more, hmore, rfl⟩ := Language.mem_mul.mp hmem
    obtain ⟨rfl, hrest⟩ := List.cons_prefix_cons.mp hbegins
    exact ⟨hd, more, hmore, hrest⟩
  · rintro ⟨hc, found, hmem, hbegins⟩
    have hone : [c] ∈ one p := ⟨c, hc, rfl⟩
    exact ⟨c :: found, Language.append_mem_mul hone hmem,
      List.cons_prefix_cons.mpr ⟨rfl, hbegins⟩⟩

theorem begins_one_iff : Begins (one p) (c :: text) ↔ p c = true := by
  constructor
  · rintro ⟨_, ⟨d, hd, rfl⟩, hbegins⟩
    obtain ⟨rfl, -⟩ := List.cons_prefix_cons.mp hbegins
    exact hd
  · exact fun hc => ⟨[c], ⟨c, hc, rfl⟩, text, rfl⟩

theorem nil_not_mem_one (p : Char → Bool) : [] ∉ one p := by
  rintro ⟨c, -, hnil⟩
  cases hnil

theorem nil_not_mem_cons (p : Char → Bool) (L : Language Char) : [] ∉ one p * L := by
  intro hmem
  obtain ⟨_, ⟨c, -, rfl⟩, rest, -, hnil⟩ := Language.mem_mul.mp hmem
  cases hnil

theorem not_begins_nil (hL : [] ∉ L) : ¬ Begins L [] := by
  rintro ⟨found, hmem, hbegins⟩
  rw [List.prefix_nil.mp hbegins] at hmem
  exact hL hmem

theorem exists_cons_of_begins (h : Begins (one p * L) text) :
    ∃ c rest, text = c :: rest ∧ p c = true ∧ Begins L rest := by
  cases text with
  | nil => exact absurd h (not_begins_nil (nil_not_mem_cons _ _))
  | cons c rest => exact ⟨c, rest, rfl, begins_cons_iff.mp h⟩

/-! ### One text or the other -/

theorem begins_add_iff : Begins (L + M) text ↔ Begins L text ∨ Begins M text := by
  simp only [Begins, Language.mem_add, or_and_right, exists_or]

theorem Longest.add_left (h : Longest L text found)
    (hother : ∀ other ∈ M, other <+: text → other.length ≤ found.length) :
    Longest (L + M) text found := by
  refine ⟨.inl h.mem, h.begins, ?_⟩
  rintro other (hmem | hmem) hbegins
  · exact h.longest other hmem hbegins
  · exact hother other hmem hbegins

theorem Longest.add_right (h : Longest M text found)
    (hother : ∀ other ∈ L, other <+: text → other.length ≤ found.length) :
    Longest (L + M) text found := by
  rw [add_comm]
  exact h.add_left hother

/-- Texts with which the text does not begin make no difference. -/
theorem le_of_not_begins (h : ¬ Begins L text) {n : Nat} :
    ∀ other ∈ L, other <+: text → other.length ≤ n :=
  fun other hmem hbegins => absurd ⟨other, hmem, hbegins⟩ h

end Text

/-! ## Categories -/

/-- The decimal digits that may begin a longer numeral. -/
def isLeadingDigit (c : Char) : Bool := isDigit c && c != '0'

/-- The marks of a binary numeral. -/
def isBinaryMark (c : Char) : Bool := c == 'b' || c == 'B'

/-- The binary numerals: a zero, the mark and one or more digits. -/
def binaryNumerals : Language Char :=
  Text.one (· == '0') * (Text.one isBinaryMark * (Text.one isBit * Text.many isBit))

/-- The texts of a category: what its regular expression matches, class by class. -/
def Category.language : Category → Language Char
  | .identifier => Text.one isLetter * Text.many isWordChar
  | .numeral => Text.one isLeadingDigit * Text.many isDigit +
      (binaryNumerals + Text.one (· == '0'))
  | .blank => Text.one Text.isSpace * Text.many Text.isSpace +
      Text.one (· == '/') * (Text.one (· == '/') * Text.many (· != '\n'))

namespace Category

open Text

/-- No text of a category is empty. -/
theorem nil_not_mem_language (category : Category) : [] ∉ category.language := by
  cases category with
  | identifier => exact nil_not_mem_cons _ _
  | numeral | blank =>
    simp only [language, binaryNumerals, Language.mem_add, nil_not_mem_one, nil_not_mem_cons, or_self,
      not_false_eq_true]

/-- The word that is found is the longest. -/
theorem longestIs_word? (text : List Char) : LongestIs identifier.language text (word? text) := by
  unfold word?
  split
  · exact .none (not_begins_nil (nil_not_mem_language _))
  · next c rest =>
    split
    · next hc => exact .some ((longest_many _ rest).cons hc)
    · next hc => exact .none fun h => hc (begins_cons_iff.mp h).1

/-- A binary numeral opens with a zero, the mark and a digit. -/
theorem exists_of_begins_binaryNumerals {text : List Char} (h : Begins binaryNumerals text) :
    ∃ mark bit rest, text = '0' :: mark :: bit :: rest ∧ (isBinaryMark mark && isBit bit) = true := by
  obtain ⟨zero, _, rfl, hzero, h⟩ := exists_cons_of_begins h
  obtain ⟨mark, _, rfl, hmark, h⟩ := exists_cons_of_begins h
  obtain ⟨bit, rest, rfl, hbit, -⟩ := exists_cons_of_begins h
  exact ⟨mark, bit, rest, by rw [beq_iff_eq.mp hzero], (Bool.and_eq_true _ _).mpr ⟨hmark, hbit⟩⟩

theorem not_begins_decimal (rest : List Char) :
    ¬ Begins (one isLeadingDigit * many isDigit) ('0' :: rest) :=
  fun h => absurd (begins_cons_iff.mp h).1 (by decide)

theorem longest_binary {mark bit : Char} (h : (isBinaryMark mark && isBit bit) = true)
    (rest : List Char) : Longest numeral.language ('0' :: mark :: bit :: rest)
      ('0' :: mark :: bit :: rest.takeWhile isBit) := by
  obtain ⟨hmark, hbit⟩ := (Bool.and_eq_true _ _).mp h
  refine (Longest.add_left ?_ ?_).add_right (le_of_not_begins (not_begins_decimal _))
  · exact (((longest_many isBit rest).cons hbit).cons hmark).cons rfl
  · rintro _ ⟨c, -, rfl⟩ -
    exact Nat.le_add_left 1 _

theorem longest_zero {rest : List Char} (h : ¬ Begins binaryNumerals ('0' :: rest)) :
    Longest numeral.language ('0' :: rest) ['0'] :=
  ((longest_one rfl rest).add_right (le_of_not_begins h)).add_right
    (le_of_not_begins (not_begins_decimal rest))

/-- The numeral that is found is the longest: a zero is a numeral of its own only if it does not open a
binary one. -/
theorem longestIs_numeral? (text : List Char) :
    LongestIs numeral.language text (numeral? text) := by
  unfold numeral?
  split
  · exact .none (not_begins_nil (nil_not_mem_language _))
  · next rest =>
    split
    · next mark bit more =>
      split
      · next hbinary => exact .some (longest_binary hbinary more)
      · next hbinary =>
        refine .some (longest_zero fun h => ?_)
        obtain ⟨_, _, _, hsame, h⟩ := exists_of_begins_binaryNumerals h
        cases hsame
        exact hbinary h
    · next hshort =>
      refine .some (longest_zero fun h => ?_)
      obtain ⟨mark, bit, more, hsame, -⟩ := exists_of_begins_binaryNumerals h
      exact hshort mark bit more (List.cons.inj hsame).2
  · next c rest hne =>
    have hother : ¬ Begins (binaryNumerals + one (· == '0')) (c :: rest) := by
      rw [begins_add_iff, begins_one_iff]
      rintro (h | hc)
      · obtain ⟨_, _, _, hsame, -⟩ := exists_of_begins_binaryNumerals h
        exact hne (List.cons.inj hsame).1
      · exact hne (beq_iff_eq.mp hc)
    split
    · next hdigit =>
      have hc : isLeadingDigit c = true := by
        rw [isLeadingDigit, hdigit, Bool.true_and, bne_iff_ne]
        exact hne
      exact .some (((longest_many isDigit rest).cons hc).add_left (le_of_not_begins hother))
    · next hdigit =>
      refine .none fun h => ?_
      obtain h | h := begins_add_iff.mp h
      · exact hdigit ((Bool.and_eq_true _ _).mp (begins_cons_iff.mp h).1).1
      · exact hother h

/-- The separator that is found is the longest. -/
theorem longestIs_blank? (text : List Char) : LongestIs blank.language text (blank? text) := by
  unfold blank?
  split
  · next rest =>
    have hspace : ¬ Begins (one Text.isSpace * many Text.isSpace) ('/' :: '/' :: rest) :=
      fun h => absurd (begins_cons_iff.mp h).1 (by decide)
    exact .some ((((longest_many _ rest).cons rfl).cons rfl).add_right (le_of_not_begins hspace))
  · next c rest hne =>
    have hcomment : ¬ Begins (one (· == '/') * (one (· == '/') * many (· != '\n'))) (c :: rest) := by
      intro h
      obtain ⟨hc, h⟩ := begins_cons_iff.mp h
      obtain ⟨d, more, rfl, hd, -⟩ := exists_cons_of_begins h
      exact hne more (beq_iff_eq.mp hc) (by rw [beq_iff_eq.mp hd])
    split
    · next hc => exact .some (((longest_many _ rest).cons hc).add_left (le_of_not_begins hcomment))
    · next hc =>
      refine .none fun h => ?_
      obtain h | h := begins_add_iff.mp h
      · exact hc (begins_cons_iff.mp h).1
      · exact hcomment h
  · exact .none (not_begins_nil (nil_not_mem_language _))

/-- What is found of a category is the longest of its texts. -/
theorem longestIs_lexeme? (category : Category) (text : List Char) :
    LongestIs category.language text (category.lexeme? text) := by
  cases category with
  | identifier => exact longestIs_word? text
  | numeral => exact longestIs_numeral? text
  | blank => exact longestIs_blank? text

end Category

/-! ### Only one category fits -/

namespace Category

open Text

/-- The characters that a text of a category begins with. -/
def opens : Category → Char → Bool
  | .identifier, c => isLetter c
  | .numeral, c => isDigit c
  | .blank, c => isSpace c || c == '/'

theorem opens_of_begins {category : Category} {c : Char} {rest : List Char}
    (h : Begins category.language (c :: rest)) : category.opens c = true := by
  cases category with
  | identifier => exact (begins_cons_iff.mp h).1
  | numeral =>
    rw [language, begins_add_iff, begins_add_iff, binaryNumerals, begins_cons_iff, begins_cons_iff,
      begins_one_iff] at h
    obtain ⟨hc, -⟩ | ⟨hc, -⟩ | hc := h
    · exact ((Bool.and_eq_true _ _).mp hc).1
    · rw [beq_iff_eq.mp hc]
      decide
    · rw [beq_iff_eq.mp hc]
      decide
  | blank =>
    rw [language, begins_add_iff, begins_cons_iff, begins_cons_iff] at h
    rw [opens, Bool.or_eq_true]
    exact h.imp And.left And.left

/-- No separator begins as a word or a numeral does. -/
theorem of_opens_blank {c : Char} (h : blank.opens c = true) : isLetter c = false ∧ isDigit c = false := by
  simp only [opens, isSpace, Bool.or_eq_true, beq_iff_eq] at h
  rcases h with (((((rfl | rfl) | rfl) | rfl) | rfl) | rfl) | rfl <;> decide

/-- No character begins texts of two categories. -/
theorem opens_unique {category category' : Category} {c : Char} (h : category.opens c = true)
    (h' : category'.opens c = true) : category = category' := by
  have hdigit := @Pattern.isLetter_of_isDigit c
  have hblank := @of_opens_blank c
  cases category <;> cases category' <;> simp_all [opens]

/-- So a text does not begin with texts of two categories. -/
theorem eq_of_begins {category category' : Category} {text : List Char}
    (h : Begins category.language text) (h' : Begins category'.language text) :
    category = category' := by
  cases text with
  | nil => exact absurd h (not_begins_nil (nil_not_mem_language _))
  | cons c rest => exact opens_unique (opens_of_begins h) (opens_of_begins h')

end Category

/-! ## Symbols -/

namespace Pattern

open Text

variable {symbols symbols' : List String} {text : List Char}

/-- The texts of some symbols. -/
def symbolTexts (symbols : List String) : Language Char :=
  {text | ∃ symbol ∈ symbols, symbol.toList = text}

theorem triedBefore_total (a b : String) : (triedBefore a b || triedBefore b a) = true := by
  simp only [triedBefore, Bool.or_eq_true, Bool.and_eq_true, decide_eq_true_eq, beq_iff_eq]
  have htotal := String.le_total a b
  grind

theorem triedBefore_trans (a b c : String) (hab : triedBefore a b = true)
    (hbc : triedBefore b c = true) : triedBefore a c = true := by
  simp only [triedBefore, Bool.or_eq_true, Bool.and_eq_true, decide_eq_true_eq, beq_iff_eq] at *
  have htrans := String.le_trans (a := a) (b := b) (c := c)
  grind

/-- A symbol that is tried later is no longer in bytes. -/
theorem utf8ByteSize_le_of_triedBefore {a b : String} (h : triedBefore a b = true) :
    b.utf8ByteSize ≤ a.utf8ByteSize := by
  simp only [triedBefore, Bool.or_eq_true, Bool.and_eq_true, decide_eq_true_eq, beq_iff_eq] at h
  omega

/-- Of two symbols with which a text begins, the one with more characters has more bytes. -/
theorem length_le_of_utf8ByteSize_le {a b : String} (ha : a.toList <+: text)
    (hb : b.toList <+: text) (h : b.utf8ByteSize ≤ a.utf8ByteSize) :
    b.toList.length ≤ a.toList.length := by
  by_contra hlt
  obtain ⟨more, hmore⟩ := List.prefix_of_prefix_length_le ha hb (by omega)
  have hb : b = a ++ String.ofList more := by
    apply String.toList_inj.mp
    rw [String.toList_append, String.toList_ofList, hmore]
  have hsize : (String.ofList more).utf8ByteSize = 0 := by
    rw [hb, String.utf8ByteSize_append] at h
    omega
  have hnil : more = [] := by
    simpa using String.utf8ByteSize_eq_zero_iff.mp hsize
  rw [← hmore, hnil, List.append_nil] at hlt
  exact hlt (Nat.le_refl _)

/-- The first symbol that fits is the longest. -/
theorem longestIs_find? (symbols : List String) (text : List Char) :
    LongestIs (symbolTexts symbols) text (((ofSymbols symbols).symbols.find? fun symbol =>
      symbol.toList.isPrefixOf text).map String.toList) := by
  cases hfind : (ofSymbols symbols).symbols.find? fun symbol => symbol.toList.isPrefixOf text with
  | none =>
    refine .none ?_
    rintro ⟨_, ⟨symbol, hmem, rfl⟩, hbegins⟩
    have hnot := List.find?_eq_none.mp hfind symbol (List.mem_mergeSort.mpr hmem)
    exact hnot (List.isPrefixOf_iff_prefix.mpr hbegins)
  | some symbol =>
    obtain ⟨hbegins, earlier, later, hsymbols, hearlier⟩ := List.find?_eq_some_iff_append.mp hfind
    have hbegins := List.isPrefixOf_iff_prefix.mp hbegins
    have hmem : symbol ∈ symbols := List.mem_mergeSort.mp (List.mem_of_find?_eq_some hfind)
    refine .some ⟨⟨symbol, hmem, rfl⟩, hbegins, ?_⟩
    rintro _ ⟨other, hother, rfl⟩ hfits
    -- none of those that are tried earlier fits
    have hordered : (earlier ++ symbol :: later).Pairwise (triedBefore · ·) := by
      rw [← hsymbols]
      exact List.pairwise_mergeSort triedBefore_trans triedBefore_total symbols
    have hother : other ∈ earlier ++ symbol :: later := by
      rw [← hsymbols]
      exact List.mem_mergeSort.mpr hother
    obtain hother | hother := List.mem_append.mp hother
    · have hnot := hearlier other hother
      rw [List.isPrefixOf_iff_prefix.mpr hfits] at hnot
      cases hnot
    · obtain rfl | hother := List.mem_cons.mp hother
      · exact Nat.le_refl _
      · have hlater := (List.pairwise_cons.mp (List.pairwise_append.mp hordered).2.1).1 other hother
        exact length_le_of_utf8ByteSize_le hbegins hfits (utf8ByteSize_le_of_triedBefore hlater)

/-- What a text begins with does not depend on the order in which the symbols are listed. -/
theorem lexeme?_congr (h : ∀ symbol, symbol ∈ symbols' ↔ symbol ∈ symbols) (text : List Char) :
    (ofSymbols symbols').lexeme? text = (ofSymbols symbols).lexeme? text := by
  have htexts : symbolTexts symbols' = symbolTexts symbols :=
    Language.ext fun found => exists_congr fun symbol => and_congr_left' (h symbol)
  have hfind := (longestIs_find? symbols text).unique (htexts ▸ longestIs_find? symbols' text)
  have hsame := Option.map_injective (fun _ _ => String.toList_inj.mp) hfind
  simp only [lexeme?, hsame]

/-- The texts of all lexemes: of each category, and the symbols. -/
def alternatives (symbols : List String) : Language Char :=
  {text | (∃ category : Category, text ∈ category.language) ∨ text ∈ symbolTexts symbols}

theorem begins_alternatives_iff : Begins (alternatives symbols) text ↔
    (∃ category : Category, Begins category.language text) ∨ Begins (symbolTexts symbols) text := by
  constructor
  · rintro ⟨found, ⟨category, hmem⟩ | hmem, hbegins⟩
    · exact .inl ⟨category, found, hmem, hbegins⟩
    · exact .inr ⟨found, hmem, hbegins⟩
  · rintro (⟨category, found, hmem, hbegins⟩ | ⟨found, hmem, hbegins⟩)
    · exact ⟨found, .inl ⟨category, hmem⟩, hbegins⟩
    · exact ⟨found, .inr hmem, hbegins⟩

/-- A text begins with a lexeme of the first category that fits, and with a symbol if none does. -/
theorem lexeme?_cases (p : Pattern) (text : List Char) :
    (∃ category found, category.lexeme? text = some found ∧
      p.lexeme? text = some ⟨found, some category⟩) ∨
    (∀ category : Category, category.lexeme? text = none) ∧
      p.lexeme? text = (p.symbols.find? fun symbol => symbol.toList.isPrefixOf text).map
        fun symbol => ⟨symbol.toList, none⟩ := by
  unfold lexeme?
  cases hword : Category.word? text with
  | some found => exact .inl ⟨.identifier, found, hword, rfl⟩
  | none =>
    cases hnumeral : Category.numeral? text with
    | some found => exact .inl ⟨.numeral, found, hnumeral, rfl⟩
    | none =>
      cases hblank : Category.blank? text with
      | some found => exact .inl ⟨.blank, found, hblank, rfl⟩
      | none =>
        refine .inr ⟨fun category => ?_, ?_⟩
        · cases category with
          | identifier => exact hword
          | numeral => exact hnumeral
          | blank => exact hblank
        · cases p.symbols.find? fun symbol => symbol.toList.isPrefixOf text <;> rfl

variable (symbols) in
/-- Where no category fits, the lexeme is the longest symbol. -/
theorem longestIs_lexeme?_of_none (h : ∀ category : Category, ¬ Begins category.language text) :
    LongestIs (symbolTexts symbols) text (((ofSymbols symbols).lexeme? text).map Lexeme.text) ∧
      ∀ lexeme, (ofSymbols symbols).lexeme? text = some lexeme → lexeme.category = none := by
  obtain ⟨category, found, hfound, -⟩ | ⟨-, hlexeme⟩ := lexeme?_cases (ofSymbols symbols) text
  · have hlongest := category.longestIs_lexeme? text
    rw [hfound] at hlongest
    exact absurd hlongest.longest_of_some.begins_language (h category)
  · rw [hlexeme]
    refine ⟨?_, fun lexeme hsome => ?_⟩
    · rw [Option.map_map]
      exact longestIs_find? symbols text
    · obtain ⟨symbol, -, rfl⟩ := Option.map_eq_some_iff.mp hsome
      rfl

/-- Where no symbol begins as a lexeme of a category does, the lexeme is the longest of all. -/
theorem longestIs_lexeme? (hapart : ∀ symbol ∈ symbols, ∀ category : Category,
      symbol.toList.head?.any category.opens = false) (hnil : "" ∉ symbols) (text : List Char) :
    LongestIs (alternatives symbols) text (((ofSymbols symbols).lexeme? text).map Lexeme.text) := by
  have hexclusive : ∀ category : Category, Begins category.language text →
      ¬ Begins (symbolTexts symbols) text := by
    rintro category hbegins ⟨_, ⟨symbol, hmem, rfl⟩, hsymbol⟩
    have hhead := hapart symbol hmem category
    cases htext : text with
    | nil => exact not_begins_nil (Category.nil_not_mem_language _) (htext ▸ hbegins)
    | cons c rest =>
      rw [htext] at hbegins hsymbol
      cases hchars : symbol.toList with
      | nil => exact hnil (String.toList_eq_nil_iff.mp hchars ▸ hmem)
      | cons d more =>
        rw [hchars] at hhead hsymbol
        obtain ⟨rfl, -⟩ := List.cons_prefix_cons.mp hsymbol
        rw [List.head?_cons, Option.any_some, Category.opens_of_begins hbegins] at hhead
        cases hhead
  obtain ⟨category, found, hfound, hlexeme⟩ | ⟨hnone, -⟩ := lexeme?_cases (ofSymbols symbols) text
  · have hlongest := category.longestIs_lexeme? text
    rw [hfound] at hlongest
    rw [hlexeme]
    have hlongest := hlongest.longest_of_some
    have hbegins := hlongest.begins_language
    refine .some ⟨.inl ⟨category, hlongest.mem⟩, hlongest.begins, ?_⟩
    rintro other (⟨category', hmem⟩ | hmem) hother
    · obtain rfl := Category.eq_of_begins hbegins ⟨other, hmem, hother⟩
      exact hlongest.longest other hmem hother
    · exact absurd ⟨other, hmem, hother⟩ (hexclusive category hbegins)
  · have hnot : ∀ category : Category, ¬ Begins category.language text := by
      intro category
      have hlongest := category.longestIs_lexeme? text
      rw [hnone category] at hlongest
      exact hlongest.not_begins_of_none
    have hlongest := (longestIs_lexeme?_of_none symbols hnot).1
    generalize ((ofSymbols symbols).lexeme? text).map Lexeme.text = found? at hlongest ⊢
    cases hlongest with
    | @some found h =>
      refine .some ⟨.inr h.mem, h.begins, ?_⟩
      rintro other (⟨category, hmem⟩ | hmem) hother
      · exact absurd ⟨other, hmem, hother⟩ (hnot category)
      · exact h.longest other hmem hother
    | none h =>
      refine .none fun hbegins => ?_
      obtain ⟨category, hbegins⟩ | hbegins := begins_alternatives_iff.mp hbegins
      · exact hnot category hbegins
      · exact h hbegins

end Pattern

/-! ## Readers -/

namespace Reader

variable {r s s' : Reader} {L : Language Char} {p p' : Pattern}

/-- A reader finds the longest text of a language with which the line at hand goes on, or passes over one
character if there is none. -/
inductive FindsLongest (L : Language Char) (r : Reader) :
    EStateM.Result LexemeError Reader Unit → Prop
  | lexeme {lexeme : Lexeme} {rest : List Char} (line : r.rest = lexeme.text ++ rest)
    (longest : Text.Longest L r.rest lexeme.text) : FindsLongest L r (.ok () (r.past lexeme rest))
  | malformed {c : Char} {rest : List Char} (line : r.rest = c :: rest)
    (none : ¬ Text.Begins L r.rest) :
    FindsLongest L r (.error (.malformed (String.singleton c) r.position) (r.pastChar rest))

/-- It does so if its pattern finds the longest. -/
theorem findsLongest_advance (hrest : r.rest ≠ [])
    (h : Text.LongestIs L r.rest ((r.pattern.lexeme? r.rest).map Lexeme.text)) :
    r.FindsLongest L r.advance := by
  rw [advance_of_rest hrest]
  cases hlexeme : r.pattern.lexeme? r.rest with
  | some lexeme =>
    rw [hlexeme] at h
    obtain ⟨rest, hline⟩ := Pattern.prefix_of_lexeme? hlexeme
    rw [take_of_lexeme hline.symm (by rw [hline]; exact hlexeme)]
    exact .lexeme hline.symm h.longest_of_some
  | none =>
    rw [hlexeme] at h
    obtain ⟨c, rest, hline⟩ := List.exists_cons_of_ne_nil hrest
    rw [take_of_none hline (by rw [← hline]; exact hlexeme)]
    exact .malformed hline h.not_begins_of_none

/-- Two readers are the same but for their patterns. -/
def Repatterned (p p' : Pattern) (s s' : Reader) : Prop :=
  s.pattern = p ∧ s' = { s with pattern := p' }

theorem Repatterned.more (h : Repatterned p p' s s') :
    EndAlike Eq (Repatterned p p') (Reader.more s) (Reader.more s') := by
  obtain ⟨hpattern, rfl⟩ := h
  have hsame : ∀ t : Reader, t.pattern = p → Repatterned p p' t { t with pattern := p' } :=
    fun t ht => ⟨ht, rfl⟩
  simp only [Reader.more]
  split
  · exact .ok (hsame _ hpattern)
  · split
    · exact .ok (hsame _ hpattern)
    · split
      · exact .ok (hsame _ hpattern)
      · exact .ok (hsame _ hpattern)
      · exact .error rfl (hsame _ hpattern)

/-- Patterns that find the same lexemes find them for a reader as well. -/
theorem Repatterned.take (hlexeme : ∀ text, p'.lexeme? text = p.lexeme? text)
    (h : Repatterned p p' s s') :
    EndAlike Eq (Repatterned p p') (Reader.take s) (Reader.take s') := by
  obtain ⟨rfl, rfl⟩ := h
  have hsame : ∀ t : Reader, t.pattern = s.pattern →
      Repatterned s.pattern p' t { t with pattern := p' } := fun t ht => ⟨ht, rfl⟩
  simp only [Reader.take, hlexeme]
  split
  · exact .ok (hsame _ rfl)
  · split
    · exact .error rfl (hsame _ rfl)
    · exact .error rfl (hsame _ rfl)

theorem Repatterned.advance (hlexeme : ∀ text, p'.lexeme? text = p.lexeme? text)
    (h : Repatterned p p' s s') :
    EndAlike Eq (Repatterned p p') (Reader.advance s) (Reader.advance s') := by
  refine h.more.bind fun found t t' ht => ?_
  cases found with
  | true => exact ht.take hlexeme
  | false => exact .error rfl ht

end Reader

/-- Where a line at hand goes on with no lexeme of a category, a reader finds the longest of the symbols
with which it goes on, and passes over a malformed character just if there is none. What it finds does
not depend on the order in which the symbols are listed. With the symbols of the language it finds the
longest of all lexemes, wherever it is in a line. -/
theorem longest_match :
    (∀ (symbols : List String) (r : Reader), r.pattern = Pattern.ofSymbols symbols → r.rest ≠ [] →
      (∀ category : Category, ¬ Text.Begins category.language r.rest) →
        r.FindsLongest (Pattern.symbolTexts symbols) r.advance ∧
          ∀ s, r.advance = .ok () s → s.category = none) ∧
    (∀ symbols symbols' : List String, (∀ symbol, symbol ∈ symbols' ↔ symbol ∈ symbols) →
      ∀ r r' : Reader, Reader.Repatterned (.ofSymbols symbols) (.ofSymbols symbols') r r' →
        EndAlike Eq (Reader.Repatterned (.ofSymbols symbols) (.ofSymbols symbols')) r.advance
          r'.advance) ∧
    ∀ r : Reader, r.pattern = Lexicon.standard.pattern → r.rest ≠ [] →
      r.FindsLongest (Pattern.alternatives (Lexicon.standardSymbols.map Prod.fst)) r.advance := by
  refine ⟨fun symbols r hpattern hrest hnone => ?_, fun symbols symbols' hmem r r' h => ?_,
    fun r hpattern hrest => ?_⟩
  · obtain ⟨hlongest, hcategory⟩ := Pattern.longestIs_lexeme?_of_none symbols hnone
    rw [← hpattern] at hlongest hcategory
    refine ⟨Reader.findsLongest_advance hrest hlongest, fun s hs => ?_⟩
    rw [Reader.advance_of_rest hrest] at hs
    unfold Reader.take at hs
    split at hs
    · next lexeme hlexeme =>
      cases hs
      exact hcategory lexeme hlexeme
    · split at hs <;> cases hs
  · exact h.advance (Pattern.lexeme?_congr hmem)
  · refine Reader.findsLongest_advance hrest ?_
    rw [hpattern]
    refine Pattern.longestIs_lexeme? (fun symbol hsymbol => ?_) (by decide) r.rest
    have hall : ∀ symbol ∈ Lexicon.standardSymbols.map Prod.fst, ∀ category ∈ Category.all,
        symbol.toList.head?.any category.opens = false := by decide
    intro category
    exact hall symbol hsymbol category (by cases category <;> decide)

/-- Symbols that begin with one another, one of them with a character of two bytes, in two orders; and a
zero that opens a binary numeral. -/
theorem longest_match_overlapping :
    let symbols := ["=", "=é", "é", "=="]
    let r : Reader := { Reader.ofSource (.ofSymbols symbols) Source.ended with
      rest := "=é=".toList, line := 1 }
    let s : Reader := { Reader.ofSource Lexicon.standard.pattern Source.ended with
      rest := "0b1012".toList, line := 1 }
    (∀ category : Category, ¬ Text.Begins category.language r.rest) ∧
      r.FindsLongest (Pattern.symbolTexts symbols) r.advance ∧
      r.advance = .ok () (r.past ⟨"=é".toList, none⟩ ['=']) ∧
      EndAlike Eq (Reader.Repatterned (.ofSymbols symbols) (.ofSymbols symbols.reverse)) r.advance
        ({ r with pattern := .ofSymbols symbols.reverse } : Reader).advance ∧
      s.FindsLongest (Pattern.alternatives (Lexicon.standardSymbols.map Prod.fst)) s.advance ∧
      s.advance = .ok () (s.past ⟨"0b101".toList, some .numeral⟩ ['2']) := by
  intro symbols r s
  have hnone : ∀ category : Category, ¬ Text.Begins category.language r.rest := by
    intro category h
    have hopens : category.opens '=' = true := Category.opens_of_begins h
    cases category <;> exact absurd hopens (by decide)
  obtain ⟨hsymbols, horder, hall⟩ := longest_match
  refine ⟨hnone, (hsymbols symbols r rfl (by decide) hnone).1, by cbv, ?_, ?_, by cbv⟩
  · exact horder symbols symbols.reverse (fun _ => List.mem_reverse) r _ ⟨rfl, rfl⟩
  · exact hall s rfl (by decide)

end ListScript
