import ListScript.Proofs.Derivations
import ListScript.Proofs.TokenRun
import Mathlib

/-!
# What a text spells

A text that is written lexeme by lexeme spells the tokens of its lexemes, provided that none of them
goes on with what is written next.

* `Text.Apart p text` : the text does not begin with a character of a class;
* `Pattern.lexeme?_word`, `Pattern.lexeme?_digits`, `Pattern.lexeme?_space`,
  `Lexicon.lexeme?_symbol` : what a text begins with;
* `Spells text L` : at the end of any line, the tokens of the text are a row of the language `L`;
* `Spells.space`, `Spells.word`, `Spells.number`, `Spells.symbol` : what is written in front of a
  text comes in front of its tokens;
* `Spells.items` : the tokens of a text that is a single line.
-/

namespace ListScript

/-! ## Where a lexeme ends -/

/-- The text does not begin with a character of the class. -/
def Text.Apart (p : Char → Bool) (text : List Char) : Prop := text.head?.any p = false

namespace Text.Apart

variable {p q : Char → Bool} {c : Char} {text : List Char}

@[simp] theorem nil_iff : Text.Apart p [] ↔ True := by simp [Text.Apart]

@[simp] theorem cons_iff : Text.Apart p (c :: text) ↔ p c = false := by simp [Text.Apart]

theorem head (h : Text.Apart p text) : ∀ c cs, text = c :: cs → p c = false := by
  rintro c cs rfl
  exact cons_iff.mp h

theorem mono (h : Text.Apart p text) (hq : ∀ c, q c = true → p c = true) : Text.Apart q text := by
  cases text with
  | nil => exact nil_iff.mpr trivial
  | cons c cs =>
    rw [cons_iff] at h ⊢
    exact Bool.eq_false_iff.mpr fun hc => Bool.eq_false_iff.mp h (hq c hc)

end Text.Apart

/-- The characters that make one symbol of the language out of another. -/
def isSymbolTail (c : Char) : Bool := c == '=' || c == ':'

/-- A letter, then letters and digits. -/
def isWord : List Char → Bool
  | [] => false
  | c :: cs => isLetter c && cs.all isWordChar

theorem isWordChar_of_mem {word : List Char} (h : isWord word = true) :
    ∀ c ∈ word, isWordChar c = true := by
  cases word with
  | nil => exact nofun
  | cons c cs =>
    rw [isWord, Bool.and_eq_true, List.all_eq_true] at h
    intro c' hc'
    obtain rfl | hc' := List.mem_cons.mp hc'
    · rw [isWordChar, h.1, Bool.true_or]
    · exact h.2 c' hc'

theorem lineFeed_not_mem_word {word : List Char} (h : isWord word = true) : '\n' ∉ word :=
  fun hmem => absurd (isWordChar_of_mem h _ hmem) (by decide)

theorem lineFeed_not_mem_digits {digits : List Char} (h : ∀ c ∈ digits, isDigit c = true) :
    '\n' ∉ digits :=
  fun hmem => absurd (h _ hmem) (by decide)

/-- Neither a blank nor the tail of a symbol belongs to a word. -/
theorem isWordChar_apart {c : Char} (h : isWordChar c = true) :
    (Text.isSpace c || isSymbolTail c) = false := by
  rw [Bool.eq_false_iff]
  intro hc
  simp only [Text.isSpace, isSymbolTail, Bool.or_eq_true, beq_iff_eq] at hc
  rcases hc with (((((rfl | rfl) | rfl) | rfl) | rfl) | rfl) | (rfl | rfl) <;>
    exact absurd h (by decide)

/-! ## What a text begins with -/

namespace Pattern

variable {p : Pattern} {rest : List Char}

/-- A text that begins with a word goes on with a character that belongs to none. -/
theorem lexeme?_word {word : List Char} (hword : isWord word = true)
    (hrest : Text.Apart isWordChar rest) :
    p.lexeme? (word ++ rest) = some ⟨word, some .identifier⟩ := by
  cases word with
  | nil => cases hword
  | cons c cs =>
    rw [isWord, Bool.and_eq_true, List.all_eq_true] at hword
    have hfound : Category.word? (c :: cs ++ rest) = some (c :: cs) := by
      rw [List.cons_append, Category.word?, if_pos hword.1,
        Numeral.takeWhile_append_eq hword.2 hrest.head]
    rw [lexeme?, hfound]

theorem word?_of_not_letter {c : Char} (h : isLetter c = false) :
    Category.word? (c :: rest) = none := by
  rw [Category.word?, if_neg (by rw [h]; decide)]

theorem numeral?_of_not_digit {c : Char} (h : isDigit c = false) :
    Category.numeral? (c :: rest) = none := by
  unfold Category.numeral?
  split
  · rfl
  · next heq => cases heq; cases h
  · next heq => cases heq; rw [if_neg (by rw [h]; decide)]

theorem blank?_of_not_space {c : Char} (h : Text.isSpace c = false) (hslash : c ≠ '/') :
    Category.blank? (c :: rest) = none := by
  unfold Category.blank?
  split
  · next heq => cases heq; exact absurd rfl hslash
  · next heq => cases heq; rw [if_neg (by rw [h]; decide)]
  · next heq => cases heq

theorem isLetter_of_isDigit {c : Char} (h : isDigit c = true) : isLetter c = false := by
  simp only [isDigit, isLetter, Bool.and_eq_true, decide_eq_true_eq, Bool.or_eq_false_iff,
    Bool.and_eq_false_iff, decide_eq_false_iff_not] at h ⊢
  have hle : c.toNat ≤ '9'.toNat := h.2
  refine ⟨.inl fun ha => ?_, .inl fun hA => ?_⟩
  · exact absurd (Nat.le_trans (show 'a'.toNat ≤ c.toNat from ha) hle) (by decide)
  · exact absurd (Nat.le_trans (show 'A'.toNat ≤ c.toNat from hA) hle) (by decide)

theorem lexeme?_digits (n : Nat) (hrest : Text.Apart isWordChar rest) :
    p.lexeme? (Nat.toDigits 10 n ++ rest) = some ⟨Nat.toDigits 10 n, some .numeral⟩ := by
  have hnumeral := Numeral.numeral?_toDigits n hrest.head
  obtain ⟨c, cs, hdigits⟩ := List.exists_cons_of_ne_nil (Nat.toDigits_ne_nil (n := n) (b := 10))
  have hc : isDigit c = true :=
    Numeral.isDigit_of_mem_toDigits (n := n) (by rw [hdigits]; exact List.mem_cons_self)
  have hword : Category.word? (Nat.toDigits 10 n ++ rest) = none := by
    rw [hdigits, List.cons_append, word?_of_not_letter (isLetter_of_isDigit hc)]
  rw [lexeme?, hword, hnumeral]

theorem lexeme?_space (hrest : Text.Apart Text.isSpace rest) :
    p.lexeme? (' ' :: rest) = some ⟨[' '], some .blank⟩ := by
  have hblank : Category.blank? (' ' :: rest) = some [' '] := by
    unfold Category.blank?
    split
    · next heq => cases heq
    · next heq =>
      cases heq
      have hnone : ∀ c ∈ ([] : List Char), Text.isSpace c = true := nofun
      have hrun : rest.takeWhile Text.isSpace = [] :=
        Numeral.takeWhile_append_eq hnone hrest.head
      rw [if_pos (by decide), hrun]
    · next heq => cases heq
  rw [lexeme?, word?_of_not_letter (by decide), numeral?_of_not_digit (by decide), hblank]

/-- A text without a line feed is a single line. -/
theorem pieces_of_line {text : List Char} (h : '\n' ∉ text) :
    p.pieces text = p.piecesOfLine ⟨1, 1⟩ text := by
  cases text with
  | nil => rw [piecesOfLine_nil]; rfl
  | cons c cs =>
    have hapart : ∀ x ∈ c :: cs, (x == '\n') = false := by
      intro x hx
      rw [beq_eq_false_iff_ne]
      rintro rfl
      exact h hx
    have hsplit := Text.splitAfter_append (List.cons_ne_nil c cs) hapart []
    rw [List.append_nil] at hsplit
    rw [pieces, hsplit]
    exact List.append_nil _

end Pattern

namespace Lexicon

variable {rest : List Char}

/-- The symbols of the language in the order in which they are tried. -/
theorem symbols_standard : standard.pattern.symbols =
    ["&&", "::", "==", "!", "(", ")", "*", "+", ",", "-", ":", ";", "=", "[", "]", "\x7b",
      "\x7d"] := by
  cbv

/-- Only an equals sign or a colon makes another symbol of a symbol. -/
theorem find?_symbol {symbol : String} (h : symbol ∈ standard.pattern.symbols)
    (hrest : Text.Apart isSymbolTail rest) :
    standard.pattern.symbols.find? (fun other => other.toList.isPrefixOf (symbol.toList ++ rest)) =
      some symbol := by
  rw [symbols_standard] at h ⊢
  cases rest with
  | nil =>
    revert symbol
    decide
  | cons c cs =>
    rw [Text.Apart.cons_iff, isSymbolTail, Bool.or_eq_false_iff] at hrest
    have hequals : ('=' == c) = false := by rw [BEq.comm, hrest.1]
    have hcolon : (':' == c) = false := by rw [BEq.comm, hrest.2]
    simp only [List.mem_cons, List.not_mem_nil, or_false] at h
    rcases h with rfl | rfl | rfl | rfl | rfl | rfl | rfl | rfl | rfl | rfl | rfl | rfl | rfl | rfl |
      rfl | rfl | rfl
    all_goals simp [List.find?, List.isPrefixOf, hequals, hcolon]

theorem lexeme?_symbol {symbol : String} (h : symbol ∈ standard.pattern.symbols)
    (hrest : Text.Apart isSymbolTail rest) :
    standard.pattern.lexeme? (symbol.toList ++ rest) = some ⟨symbol.toList, none⟩ := by
  have hfirst : ∀ symbol ∈ standard.pattern.symbols, symbol.toList.head?.any (fun c =>
      !isLetter c && !isDigit c && !Text.isSpace c && c != '/') = true := by
    rw [symbols_standard]
    decide
  have hfound := find?_symbol h hrest
  have hhead := hfirst symbol h
  cases hsymbol : symbol.toList with
  | nil =>
    rw [hsymbol] at hhead
    cases hhead
  | cons c cs =>
    rw [hsymbol, List.head?_cons, Option.any_some] at hhead
    simp only [Bool.and_eq_true, Bool.not_eq_true', bne_iff_ne] at hhead
    obtain ⟨⟨⟨hletter, hdigit⟩, hspace⟩, hslash⟩ := hhead
    rw [hsymbol, List.cons_append] at hfound
    rw [List.cons_append, Pattern.lexeme?, Pattern.word?_of_not_letter hletter,
      Pattern.numeral?_of_not_digit hdigit, Pattern.blank?_of_not_space hspace hslash, hfound,
      ← hsymbol]

theorem mem_symbols {symbol : String} {kind : Kind} (h : (symbol, kind) ∈ standardSymbols) :
    symbol ∈ standard.pattern.symbols :=
  List.mem_mergeSort.mpr (List.mem_map_of_mem (f := Prod.fst) h)

theorem lineFeed_not_mem_symbol {symbol : String} {kind : Kind}
    (h : (symbol, kind) ∈ standardSymbols) : '\n' ∉ symbol.toList := by
  have hall : ∀ entry ∈ standardSymbols, '\n' ∉ entry.1.toList := by decide
  exact hall _ h

theorem symbolToken_of_mem {symbol : String} {kind : Kind} (h : (symbol, kind) ∈ standardSymbols)
    (span : Span) :
    standard.symbolToken (String.ofList symbol.toList) span = .ok ⟨kind, symbol, span, none⟩ := by
  have hall : ∀ entry ∈ standardSymbols, standard.symbol? entry.1 = some entry.2 := by decide
  rw [String.ofList_toList, symbolToken, hall _ h]

/-- The digits of a number in range give its token. -/
theorem numeralToken_toDigits {n : Nat} (h : n < Numeral.limit) (span : Span) :
    numeralToken (String.ofList (Nat.toDigits 10 n)) span =
      .ok ⟨.numeral, String.ofList (Nat.toDigits 10 n), span, some (.int (Int64.ofNat n))⟩ := by
  rw [numeralToken, String.toList_ofList, Numeral.denoted?_toDigits]
  exact if_pos h

theorem keyword?_of_mem {word : String} {kind : Kind} (h : (word, kind) ∈ standardKeywords) :
    standard.keyword? word = some kind := by
  have hall : ∀ entry ∈ standardKeywords, standard.keyword? entry.1 = some entry.2 := by decide
  exact hall _ h

theorem isWord_of_mem {word : String} {kind : Kind} (h : (word, kind) ∈ standardKeywords) :
    isWord word.toList = true := by
  have hall : ∀ entry ∈ standardKeywords, isWord entry.1.toList = true := by decide
  exact hall _ h

/-- The kind of a word that is not reserved is that of a name. -/
theorem kind_wordToken (lexicon : Lexicon) (text : String) (span : Span) :
    (lexicon.wordToken text span).kind = (lexicon.keyword? text).getD .identifier := by
  unfold wordToken
  split
  · next h => rw [h]; rfl
  · next h => rw [h]; rfl
  · next h => rw [h]; rfl

theorem text_wordToken (lexicon : Lexicon) (text : String) (span : Span) :
    (lexicon.wordToken text span).text = text := by
  unfold wordToken
  split <;> rfl

end Lexicon

/-! ## Rows of tokens -/

/-- The rows of a single token with a property. -/
def Token.row (p : Token → Prop) : Language Token := {tokens | ∃ t, p t ∧ tokens = [t]}

/-- The rows of a single token of a kind. -/
def Kind.row (kind : Kind) : Language Token := Token.row fun t => t.kind = kind

/-- Wherever the text stands at the end of a line, its tokens are a row of the language. -/
def Spells (text : List Char) (L : Language Token) : Prop :=
  '\n' ∉ text ∧ ∀ start, ∃ tokens ∈ L,
    (Lexicon.standard.pattern.piecesOfLine start text).filterMap Lexicon.standard.item? =
      tokens.map .ok

namespace Spells

variable {text rest : List Char} {L M : Language Token} {p : Token → Prop}

theorem nil : Spells [] 1 := by
  refine ⟨nofun, fun start => ⟨[], rfl, ?_⟩⟩
  rw [Pattern.piecesOfLine_nil]
  rfl

theorem mono (h : Spells text L) (hle : L ≤ M) : Spells text M := by
  obtain ⟨hline, htokens⟩ := h
  refine ⟨hline, fun start => ?_⟩
  obtain ⟨tokens, hmem, hitems⟩ := htokens start
  exact ⟨tokens, hle hmem, hitems⟩

/-- A lexeme in front of a text puts what comes of it in front of the tokens. -/
theorem of_lexeme (lexeme : Lexeme) (h : Spells rest M) (hline : '\n' ∉ lexeme.text)
    (hfound : Lexicon.standard.pattern.lexeme? (lexeme.text ++ rest) = some lexeme)
    (hitem : ∀ start, ∃ tokens ∈ L,
      (Lexicon.standard.item? (.ofLexeme lexeme start)).toList = tokens.map .ok) :
    Spells (lexeme.text ++ rest) (L * M) := by
  refine ⟨fun hmem => (List.mem_append.mp hmem).elim hline h.1, fun start => ?_⟩
  obtain ⟨us, hus, hfirst⟩ := hitem start
  obtain ⟨vs, hvs, hrest⟩ := h.2 (start.right lexeme.text.length)
  refine ⟨us ++ vs, Language.append_mem_mul hus hvs, ?_⟩
  rw [Pattern.piecesOfLine_of_lexeme Lexicon.proper_standard hfound, List.map_append, ← hfirst,
    ← hrest, List.filterMap_cons]
  cases Lexicon.standard.item? (.ofLexeme lexeme start) with
  | none => rfl
  | some item => rfl

theorem of_token (lexeme : Lexeme) (h : Spells rest M) (hline : '\n' ∉ lexeme.text)
    (hfound : Lexicon.standard.pattern.lexeme? (lexeme.text ++ rest) = some lexeme)
    (hitem : ∀ start, ∃ t, p t ∧
      Lexicon.standard.item? (.ofLexeme lexeme start) = some (.ok t)) :
    Spells (lexeme.text ++ rest) (Token.row p * M) := by
  refine of_lexeme lexeme h hline hfound fun start => ?_
  obtain ⟨t, hp, hitem⟩ := hitem start
  exact ⟨[t], ⟨t, hp, rfl⟩, by rw [hitem]; rfl⟩

theorem space (h : Spells rest L) (hrest : Text.Apart Text.isSpace rest) :
    Spells (' ' :: rest) L := by
  have hblank := of_lexeme (L := 1) ⟨[' '], some .blank⟩ h (by decide)
    (Pattern.lexeme?_space hrest) fun _ => ⟨[], rfl, rfl⟩
  rwa [one_mul] at hblank

theorem word {word : String} (h : Spells rest L) (hword : isWord word.toList = true)
    (hp : ∀ span, p (Lexicon.standard.wordToken word span)) (hrest : Text.Apart isWordChar rest) :
    Spells (word.toList ++ rest) (Token.row p * L) := by
  refine of_token ⟨word.toList, some .identifier⟩ h (lineFeed_not_mem_word hword)
    (Pattern.lexeme?_word hword hrest) fun start => ⟨_, ?_, rfl⟩
  rw [String.ofList_toList]
  exact hp _

theorem keyword {word : String} {kind : Kind} (h : Spells rest L)
    (hmem : (word, kind) ∈ Lexicon.standardKeywords) (hrest : Text.Apart isWordChar rest) :
    Spells (word.toList ++ rest) (kind.row * L) := by
  refine h.word (Lexicon.isWord_of_mem hmem) (fun span => ?_) hrest
  rw [Lexicon.kind_wordToken, Lexicon.keyword?_of_mem hmem, Option.getD_some]

theorem symbol {symbol : String} {kind : Kind} (h : Spells rest L)
    (hmem : (symbol, kind) ∈ Lexicon.standardSymbols) (hrest : Text.Apart isSymbolTail rest) :
    Spells (symbol.toList ++ rest) (kind.row * L) := by
  exact of_token ⟨symbol.toList, none⟩ h (Lexicon.lineFeed_not_mem_symbol hmem)
    (Lexicon.lexeme?_symbol (Lexicon.mem_symbols hmem) hrest) fun start =>
      ⟨_, rfl, congrArg some (Lexicon.symbolToken_of_mem hmem _)⟩

theorem number {n : Nat} (h : Spells rest L) (hn : n < Numeral.limit)
    (hrest : Text.Apart isWordChar rest) :
    Spells (Nat.toDigits 10 n ++ rest)
      ((Token.row fun t => t.kind = .numeral ∧ t.literal = some (.int (Int64.ofNat n))) * L) := by
  have hline : '\n' ∉ Nat.toDigits 10 n :=
    lineFeed_not_mem_digits fun _ => Numeral.isDigit_of_mem_toDigits
  exact of_token ⟨Nat.toDigits 10 n, some .numeral⟩ h hline
    (Pattern.lexeme?_digits n hrest) fun start =>
      ⟨_, ⟨rfl, rfl⟩, congrArg some (Lexicon.numeralToken_toDigits hn _)⟩

/-- The tokens of a text on a single line are those that it spells, and then the end. -/
theorem items {text : String} (h : Spells text.toList L) : ∃ tokens ∈ L, ∃ stop,
    (TokenStream.ofSource Lexicon.standard (Source.ofText text)).items =
      (tokens ++ [Token.endOfText stop]).map .ok := by
  obtain ⟨tokens, hmem, hitems⟩ := h.2 ⟨1, 1⟩
  have hall := TokenStream.items_ofText Lexicon.Proper.standard text
  rw [Pattern.pieces_of_line h.1, Lexicon.itemsOf, hitems, ← List.map_singleton,
    ← List.map_append] at hall
  exact ⟨tokens, hmem, _, hall⟩

end Spells

end ListScript
