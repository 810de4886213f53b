import ListScript.Proofs.LineBreaks
import ListScript.Proofs.RoundTrip

/-!
# Tokens written out and read back

* `Token.Form`, `Token.Form.Spelled` : what a token is but for its place, and the forms that the
  language has a spelling for;
* `Gap`, `Rendered`, `Layout` : what may stand between lexemes, and the texts in which the lexemes of
  some forms stand one after the other;
* `Lexicon.yields` : what comes of a text that begins anywhere in a line; nothing comes of a gap
  (`Gap.yields`), and of a lexeme comes its token (`Lexicon.yields_lexeme`);
* `Layout.tokenize` : a text in which some forms are written has tokens of these forms;
* `Token.Form.Spelled.of_tokenize` : the tokens of any text have such forms.
-/

namespace ListScript

/-! ## What is written -/

/-- A token but for its place. -/
structure Token.Form where
  text : String
  kind : Kind
  literal : Option Literal
  deriving DecidableEq, Repr

/-- The form of a token. -/
def Token.form (t : Token) : Token.Form := ⟨t.text, t.kind, t.literal⟩

/-- The forms that the language has a spelling for. -/
inductive Token.Form.Spelled : Token.Form → Prop
  /-- A word that is not reserved is a name. -/
  | name {text : String} : isWord text.toList = true →
    (∀ kind, (text, kind) ∉ Lexicon.standardKeywords) → Spelled ⟨text, .identifier, none⟩
  /-- A reserved word but for the truth values. -/
  | keyword {text : String} {kind : Kind} : (text, kind) ∈ Lexicon.standardKeywords →
    kind ≠ .boolean → Spelled ⟨text, kind, none⟩
  | truth (value : Bool) : Spelled ⟨toString value, .boolean, some (.bool value)⟩
  /-- Only zero has a zero in front. -/
  | decimal {digits : List Char} : digits ≠ [] → (∀ c ∈ digits, isDigit c = true) →
    (digits.head? = some '0' → digits = ['0']) → Nat.ofDigitChars 10 digits 0 < Numeral.limit →
    Spelled ⟨String.ofList digits, .numeral,
      some (.int (Int64.ofNat (Nat.ofDigitChars 10 digits 0)))⟩
  | binary {b : Char} {bits : List Char} : b = 'b' ∨ b = 'B' → bits ≠ [] →
    (∀ c ∈ bits, isBit c = true) → Nat.ofDigitChars 2 bits 0 < Numeral.limit →
    Spelled ⟨String.ofList ('0' :: b :: bits), .numeral,
      some (.int (Int64.ofNat (Nat.ofDigitChars 2 bits 0)))⟩
  | symbol {text : String} {kind : Kind} : (text, kind) ∈ Lexicon.standardSymbols →
    Spelled ⟨text, kind, none⟩

/-- Blanks, and comments up to the end of their line. -/
inductive Gap : List Char → Prop
  | nil : Gap []
  | space {c : Char} {rest : List Char} : Text.isSpace c = true → Gap rest → Gap (c :: rest)
  | comment {body rest : List Char} : '\n' ∉ body → Gap rest →
    Gap ('/' :: '/' :: body ++ '\n' :: rest)

/-- Lexemes of the given forms, each with a gap behind it. The gap is not empty where another lexeme
follows. -/
inductive Rendered : List Token.Form → List Char → Prop
  | nil : Rendered [] []
  | cons {form : Token.Form} {forms : List Token.Form} {gap text : List Char} :
    form.Spelled → Gap gap → (forms ≠ [] → gap ≠ []) → Rendered forms text →
    Rendered (form :: forms) (form.text.toList ++ (gap ++ text))

/-- Lexemes of the given forms, with a gap in front of the first, between any two and behind the
last. -/
def Layout (forms : List Token.Form) (text : List Char) : Prop :=
  ∃ gap rest, Gap gap ∧ Rendered forms rest ∧ text = gap ++ rest

/-! ## Lines from anywhere -/

namespace Text

/-- What a text holds up to its first line feed. -/
def firstLine (text : List Char) : List Char := (splitAfter (· == '\n') text).headD []

/-- The lines after the first. -/
def otherLines (text : List Char) : List (List Char) := (splitAfter (· == '\n') text).tail

theorem splitAfter_eq_firstLine {ws : List Char} (hne : ws ≠ []) (h : '\n' ∉ ws) (rest : List Char) :
    splitAfter (· == '\n') (ws ++ rest) = (ws ++ firstLine rest) :: otherLines rest := by
  have hws : ∀ x ∈ ws, (x == '\n') = false := by
    intro x hx
    rw [beq_eq_false_iff_ne]
    rintro rfl
    exact h hx
  rw [splitAfter_append hne hws, firstLine, otherLines]
  cases splitAfter (· == '\n') rest with
  | nil => simp
  | cons line lines => rfl

theorem splitAfter_lineFeed {body : List Char} (h : '\n' ∉ body) (rest : List Char) :
    splitAfter (· == '\n') (body ++ '\n' :: rest) =
      (body ++ ['\n']) :: splitAfter (· == '\n') rest := by
  have hbody : ∀ x ∈ body, (x == '\n') = false := by
    intro x hx
    rw [beq_eq_false_iff_ne]
    rintro rfl
    exact h hx
  exact splitAfter_append_cons hbody rfl rest

theorem Apart.firstLine {q : Char → Bool} {text : List Char} (h : Apart q text) :
    Apart q (firstLine text) := by
  cases text with
  | nil => exact h
  | cons c cs =>
    rw [Apart.cons_iff] at h
    rw [Text.firstLine, splitAfter_cons]
    split
    · exact Apart.cons_iff.mpr h
    · cases splitAfter (· == '\n') cs with
      | nil => exact Apart.cons_iff.mpr h
      | cons line lines => exact Apart.cons_iff.mpr h

end Text

namespace Pattern

variable {p : Pattern} {start : Position}

/-- The pieces of a text that begins at `start`, anywhere in a line. -/
def piecesFrom (p : Pattern) (start : Position) (text : List Char) : List Piece :=
  p.piecesOfLine start (Text.firstLine text) ++
    p.piecesOfLines (start.line + 1) (Text.otherLines text)

theorem piecesOfLines_eq (p : Pattern) (number : Nat) (text : List Char) :
    p.piecesOfLines number (Text.splitAfter (· == '\n') text) = p.piecesFrom ⟨number, 1⟩ text := by
  rw [piecesFrom, Text.firstLine, Text.otherLines]
  cases Text.splitAfter (· == '\n') text with
  | nil =>
    show _ = p.piecesOfLine ⟨number, 1⟩ [] ++ _
    rw [piecesOfLine_nil]
    rfl
  | cons line lines => rfl

theorem piecesFrom_append {ws : List Char} (h : '\n' ∉ ws) (rest : List Char) :
    p.piecesFrom start (ws ++ rest) =
      p.piecesOfLine start (ws ++ Text.firstLine rest) ++
        p.piecesOfLines (start.line + 1) (Text.otherLines rest) := by
  cases ws with
  | nil => rfl
  | cons c cs =>
    rw [piecesFrom, Text.firstLine, Text.otherLines,
      Text.splitAfter_eq_firstLine (List.cons_ne_nil c cs) h]
    rfl

theorem piecesFrom_lineFeed {body : List Char} (h : '\n' ∉ body) (rest : List Char) :
    p.piecesFrom start (body ++ '\n' :: rest) =
      p.piecesOfLine start (body ++ ['\n']) ++ p.piecesFrom ⟨start.line + 1, 1⟩ rest := by
  rw [piecesFrom, Text.firstLine, Text.otherLines, Text.splitAfter_lineFeed h]
  exact congrArg _ (piecesOfLines_eq p _ rest)

theorem lexeme?_blank {c : Char} (h : Text.isSpace c = true) (rest : List Char) :
    p.lexeme? (c :: rest) = some ⟨c :: rest.takeWhile Text.isSpace, some .blank⟩ := by
  have hchar : isLetter c = false ∧ isDigit c = false ∧ c ≠ '/' := by
    simp only [Text.isSpace, Bool.or_eq_true, beq_iff_eq] at h
    rcases h with ((((rfl | rfl) | rfl) | rfl) | rfl) | rfl <;> decide
  obtain ⟨hletter, hdigit, hslash⟩ := hchar
  have hno : ∀ more, c :: rest ≠ '/' :: '/' :: more := by
    rintro more heq
    cases heq
    exact hslash rfl
  rw [lexeme?, word?_of_not_letter hletter, numeral?_of_not_digit hdigit, Category.blank?_cons hno,
    if_pos h]

theorem lexeme?_comment {body : List Char} (h : '\n' ∉ body) :
    p.lexeme? ('/' :: '/' :: body ++ ['\n']) = some ⟨'/' :: '/' :: body, some .blank⟩ := by
  have hbody : ∀ c ∈ body, (c != '\n') = true := by
    intro c hc
    rw [bne_iff_ne]
    rintro rfl
    exact h hc
  have hcomment : Category.blank? ('/' :: '/' :: (body ++ ['\n'])) = some ('/' :: '/' :: body) := by
    rw [Category.blank?, List.takeWhile_append_of_pos hbody]
    simp
  rw [List.cons_append, List.cons_append, lexeme?, word?_of_not_letter (by decide),
    numeral?_of_not_digit (by decide), hcomment]

/-- A run of blanks is one piece. -/
theorem piecesOfLine_blank (hp : p.Proper) {c : Char} (h : Text.isSpace c = true) (line : List Char) :
    p.piecesOfLine start (c :: line) =
      .ofLexeme ⟨c :: line.takeWhile Text.isSpace, some .blank⟩ start ::
        p.piecesOfLine (start.right ((line.takeWhile Text.isSpace).length + 1))
          (line.dropWhile Text.isSpace) := by
  let lexeme : Lexeme := ⟨c :: line.takeWhile Text.isSpace, some .blank⟩
  have hline : c :: line = lexeme.text ++ line.dropWhile Text.isSpace := by
    rw [List.cons_append, List.takeWhile_append_dropWhile]
  have hfound : p.lexeme? (lexeme.text ++ line.dropWhile Text.isSpace) = some lexeme := by
    rw [← hline, lexeme?_blank h]
  rw [hline, piecesOfLine_of_lexeme hp hfound]
  rfl

end Pattern

/-! ## What comes of gaps and of lexemes -/

namespace Lexicon

variable {lexicon : Lexicon} {start : Position}

/-- What comes of a text that begins at `start`, but for the end. -/
def yields (lexicon : Lexicon) (start : Position) (text : List Char) :
    List (Except (Stop TokenError) Token) :=
  (lexicon.pattern.piecesFrom start text).filterMap lexicon.item?

theorem item?_blank (lexicon : Lexicon) (text : List Char) (start : Position) :
    lexicon.item? (.ofLexeme ⟨text, some .blank⟩ start) = none := rfl

/-- Nothing comes of a blank in front of a line. -/
theorem items_blank (hp : lexicon.pattern.Proper) {c : Char} (h : Text.isSpace c = true)
    (line : List Char) : (lexicon.pattern.piecesOfLine start (c :: line)).filterMap lexicon.item? =
      (lexicon.pattern.piecesOfLine (start.right 1) line).filterMap lexicon.item? := by
  rw [Pattern.piecesOfLine_blank hp h, List.filterMap_cons_none (item?_blank _ _ _)]
  cases line with
  | nil => rfl
  | cons d line =>
    by_cases hd : Text.isSpace d = true
    · rw [Pattern.piecesOfLine_blank hp hd, List.filterMap_cons_none (item?_blank _ _ _),
        List.takeWhile_cons_of_pos hd, List.dropWhile_cons_of_pos hd]
      have hplace : start.right ((line.takeWhile Text.isSpace).length + 1 + 1) =
          (start.right 1).right ((line.takeWhile Text.isSpace).length + 1) := by
        simp only [Position.right, Nat.add_assoc, Nat.add_comm 1]
      rw [List.length_cons, hplace]
    · rw [List.takeWhile_cons_of_neg hd, List.dropWhile_cons_of_neg hd]
      rfl

theorem yields_lineFeed (hp : lexicon.pattern.Proper) (rest : List Char) :
    lexicon.yields start ('\n' :: rest) = lexicon.yields ⟨start.line + 1, 1⟩ rest := by
  have hpieces : lexicon.pattern.piecesFrom start ('\n' :: rest) = lexicon.pattern.piecesOfLine start
      ['\n'] ++ lexicon.pattern.piecesFrom ⟨start.line + 1, 1⟩ rest :=
    Pattern.piecesFrom_lineFeed List.not_mem_nil rest
  rw [yields, hpieces, List.filterMap_append, items_blank hp (by decide), Pattern.piecesOfLine_nil]
  rfl

theorem yields_space (hp : lexicon.pattern.Proper) {c : Char} (h : Text.isSpace c = true)
    (hc : c ≠ '\n') (rest : List Char) :
    lexicon.yields start (c :: rest) = lexicon.yields (start.right 1) rest := by
  have hline : '\n' ∉ [c] := by
    rw [List.mem_singleton]
    exact hc.symm
  have hpieces : lexicon.pattern.piecesFrom start (c :: rest) =
      lexicon.pattern.piecesOfLine start (c :: Text.firstLine rest) ++
        lexicon.pattern.piecesOfLines (start.line + 1) (Text.otherLines rest) :=
    Pattern.piecesFrom_append hline rest
  rw [yields, hpieces, List.filterMap_append, items_blank hp h, ← List.filterMap_append]
  rfl

theorem yields_comment (hp : lexicon.pattern.Proper) {body : List Char} (h : '\n' ∉ body)
    (rest : List Char) : lexicon.yields start ('/' :: '/' :: body ++ '\n' :: rest) =
      lexicon.yields ⟨start.line + 1, 1⟩ rest := by
  have hline : '\n' ∉ '/' :: '/' :: body := by simpa using h
  let lexeme : Lexeme := ⟨'/' :: '/' :: body, some .blank⟩
  have hfound : lexicon.pattern.lexeme? (lexeme.text ++ ['\n']) = some lexeme :=
    Pattern.lexeme?_comment h
  have hcomment : (lexicon.pattern.piecesOfLine start (lexeme.text ++ ['\n'])).filterMap
      lexicon.item? = [] := by
    rw [Pattern.piecesOfLine_of_lexeme hp hfound, List.filterMap_cons_none (item?_blank _ _ _),
      items_blank hp (by decide), Pattern.piecesOfLine_nil]
    rfl
  rw [yields, Pattern.piecesFrom_lineFeed hline, List.filterMap_append]
  exact congrArg (· ++ _) hcomment

/-- Of a lexeme comes what its token is, and then what comes of the rest. -/
theorem yields_lexeme (hp : lexicon.pattern.Proper) {lexeme : Lexeme} {rest : List Char}
    {item : Except (Stop TokenError) Token} (hline : '\n' ∉ lexeme.text)
    (hfound : lexicon.pattern.lexeme? (lexeme.text ++ Text.firstLine rest) = some lexeme)
    (hitem : lexicon.item? (.ofLexeme lexeme start) = some item) :
    lexicon.yields start (lexeme.text ++ rest) =
      item :: lexicon.yields (start.right lexeme.text.length) rest := by
  rw [yields, Pattern.piecesFrom_append hline, Pattern.piecesOfLine_of_lexeme hp hfound,
    List.cons_append, List.filterMap_cons_some hitem]
  rfl

end Lexicon

/-- Nothing comes of a gap. -/
theorem Gap.yields {lexicon : Lexicon} (hp : lexicon.pattern.Proper) {gap : List Char} (h : Gap gap)
    (rest : List Char) (start : Position) :
    ∃ start', lexicon.yields start (gap ++ rest) = lexicon.yields start' rest := by
  induction h generalizing start with
  | nil => exact ⟨start, rfl⟩
  | @space c gap hc _ ih =>
    rw [List.cons_append]
    by_cases hfeed : c = '\n'
    · subst hfeed
      rw [Lexicon.yields_lineFeed hp]
      exact ih _
    · rw [Lexicon.yields_space hp hc hfeed]
      exact ih _
  | @comment body gap hbody _ ih =>
    rw [List.append_assoc]
    show ∃ start', lexicon.yields start ('/' :: '/' :: body ++ '\n' :: (gap ++ rest)) = _
    rw [Lexicon.yields_comment hp hbody]
    exact ih _

/-! ## Forms and their lexemes -/

namespace Numeral

theorem isWordChar_of_isDigit {c : Char} (h : isDigit c = true) : isWordChar c = true := by
  rw [isWordChar, h, Bool.or_true]

theorem isDigit_of_isBit {c : Char} (h : isBit c = true) : isDigit c = true := by
  simp only [isBit, Bool.or_eq_true, beq_iff_eq] at h
  rcases h with rfl | rfl <;> decide

/-- A decimal numeral ends where a character comes that belongs to no word. -/
theorem numeral?_decimal {digits rest : List Char} (hne : digits ≠ [])
    (h : ∀ c ∈ digits, isDigit c = true) (hzero : digits.head? = some '0' → digits = ['0'])
    (hrest : Text.Apart isWordChar rest) : Category.numeral? (digits ++ rest) = some digits := by
  obtain ⟨c, cs, rfl⟩ := List.exists_cons_of_ne_nil hne
  by_cases hc : c = '0'
  · subst hc
    rw [hzero rfl]
    exact numeral?_toDigits 0 hrest.head
  · have htail : (cs ++ rest).takeWhile isDigit = cs :=
      takeWhile_append_eq (fun d hd => h d (List.mem_cons_of_mem _ hd))
        (hrest.mono fun _ => isWordChar_of_isDigit).head
    rw [List.cons_append, Category.numeral?_cons_of_ne_zero hc, if_pos (h c List.mem_cons_self), htail]

/-- A binary numeral ends where a character comes that belongs to no word. -/
theorem numeral?_binary {b : Char} {bits rest : List Char} (hb : b = 'b' ∨ b = 'B') (hne : bits ≠ [])
    (h : ∀ c ∈ bits, isBit c = true) (hrest : Text.Apart isWordChar rest) :
    Category.numeral? ('0' :: b :: bits ++ rest) = some ('0' :: b :: bits) := by
  obtain ⟨c, cs, rfl⟩ := List.exists_cons_of_ne_nil hne
  have hletter : (b == 'b' || b == 'B') = true := by
    rw [Bool.or_eq_true, beq_iff_eq, beq_iff_eq]
    exact hb
  have htail : (cs ++ rest).takeWhile isBit = cs :=
    takeWhile_append_eq (fun d hd => h d (List.mem_cons_of_mem _ hd))
      (hrest.mono fun _ hd => isWordChar_of_isDigit (isDigit_of_isBit hd)).head
  rw [List.cons_append, List.cons_append, List.cons_append, Category.numeral?, hletter,
    h c List.mem_cons_self, htail]
  rfl

theorem denoted?_binary {b : Char} {bits : List Char} (hb : b = 'b' ∨ b = 'B') (hne : bits ≠ [])
    (h : ∀ c ∈ bits, isBit c = true) :
    denoted? ('0' :: b :: bits) = some (Nat.ofDigitChars 2 bits 0) := by
  have hletter : (b == 'b' || b == 'B') = true := by
    rw [Bool.or_eq_true, beq_iff_eq, beq_iff_eq]
    exact hb
  rw [denoted?, if_pos hletter, value?_eq hne fun c hc => isSome_digit?_two (h c hc)]

/-- A numeral is decimal, without a zero in front, or binary. -/
theorem numeral?_inv {text found : List Char} (h : Category.numeral? text = some found) :
    (found ≠ [] ∧ (∀ c ∈ found, isDigit c = true) ∧ (found.head? = some '0' → found = ['0'])) ∨
      ∃ b bits, found = '0' :: b :: bits ∧ (b = 'b' ∨ b = 'B') ∧ bits ≠ [] ∧
        ∀ c ∈ bits, isBit c = true := by
  have hzero : ∀ c ∈ ['0'], isDigit c = true := List.forall_mem_singleton.mpr rfl
  unfold Category.numeral? at h
  split at h
  · cases h
  · split at h
    · next b c more =>
      split at h
      · next hbit =>
        cases h
        rw [Bool.and_eq_true, Bool.or_eq_true, beq_iff_eq, beq_iff_eq] at hbit
        refine .inr ⟨b, _, rfl, hbit.1, List.cons_ne_nil _ _, List.forall_mem_cons.mpr ⟨hbit.2, ?_⟩⟩
        exact fun _ hd => List.mem_takeWhile_imp hd
      · cases h
        exact .inl ⟨List.cons_ne_nil _ _, hzero, fun _ => rfl⟩
    · cases h
      exact .inl ⟨List.cons_ne_nil _ _, hzero, fun _ => rfl⟩
  · next c rest hno =>
    split at h
    · next hdigit =>
      cases h
      refine .inl ⟨List.cons_ne_nil _ _, List.forall_mem_cons.mpr ⟨hdigit, ?_⟩, fun hhead => ?_⟩
      · exact fun _ hd => List.mem_takeWhile_imp hd
      · exact absurd (Option.some.inj hhead) hno
    · cases h

end Numeral

namespace Token.Form

/-- The lexeme of a form: it is found where the text goes on with a character that belongs neither to
a word nor to the tail of a symbol, and its token has the form. -/
structure Found (form : Form) (category : Option Category) : Prop where
  line : '\n' ∉ form.text.toList
  lexeme : ∀ rest, Text.Apart isWordChar rest → Text.Apart isSymbolTail rest →
    Lexicon.standard.pattern.lexeme? (form.text.toList ++ rest) =
      some ⟨form.text.toList, category⟩
  token : ∀ start, ∃ t, t.form = form ∧
    Lexicon.standard.item? (.ofLexeme ⟨form.text.toList, category⟩ start) = some (.ok t)

theorem found_word {form : Form} (h : isWord form.text.toList = true)
    (hform : ∀ span, (Lexicon.standard.wordToken form.text span).form = form) :
    form.Found (some .identifier) where
  line := lineFeed_not_mem_word h
  lexeme _ hrest _ := Pattern.lexeme?_word h hrest
  token start := by
    refine ⟨_, hform ⟨start, start.right form.text.toList.length⟩, ?_⟩
    rw [Piece.ofLexeme, String.ofList_toList]
    rfl

theorem found_numeral {digits : List Char} {n : Nat} (hdigit : ∃ c cs, digits = c :: cs ∧ isDigit c = true)
    (hline : '\n' ∉ digits) (hn : n < Numeral.limit)
    (hfound : ∀ rest, Text.Apart isWordChar rest → Category.numeral? (digits ++ rest) = some digits)
    (hdenoted : Numeral.denoted? digits = some n) :
    Found ⟨String.ofList digits, .numeral, some (.int (Int64.ofNat n))⟩ (some .numeral) where
  line := by rwa [String.toList_ofList]
  lexeme rest hrest _ := by
    obtain ⟨c, cs, rfl, hc⟩ := hdigit
    have hnumeral := hfound rest hrest
    rw [List.cons_append] at hnumeral
    rw [String.toList_ofList, List.cons_append, Pattern.lexeme?,
      Pattern.word?_of_not_letter (Pattern.isLetter_of_isDigit hc), hnumeral]
  token start := by
    let span : Span := ⟨start, start.right digits.length⟩
    refine ⟨⟨.numeral, String.ofList digits, span, some (.int (Int64.ofNat n))⟩, rfl, ?_⟩
    rw [String.toList_ofList]
    show some (Lexicon.numeralToken (String.ofList digits) span) = _
    rw [Lexicon.numeralToken, String.toList_ofList, hdenoted]
    show some (if n < Numeral.limit then _ else _) = _
    rw [if_pos hn]

theorem found_symbol {text : String} {kind : Kind} (h : (text, kind) ∈ Lexicon.standardSymbols) :
    Found ⟨text, kind, none⟩ none where
  line := Lexicon.lineFeed_not_mem_symbol h
  lexeme _ _ hrest := Lexicon.lexeme?_symbol (Lexicon.mem_symbols h) hrest
  token _ := ⟨_, rfl, congrArg some (Lexicon.symbolToken_of_mem h _)⟩

/-- A form with a spelling is found as a lexeme. -/
theorem Spelled.found {form : Form} (h : form.Spelled) : ∃ category, form.Found category := by
  cases h with
  | @name text hword hkeyword =>
    have hnone : Lexicon.standard.keyword? text = none := by
      apply List.lookup_eq_none_iff.mpr
      intro entry hentry
      rw [bne_iff_ne]
      rintro rfl
      exact hkeyword entry.2 hentry
    refine ⟨_, found_word hword fun span => ?_⟩
    rw [Lexicon.wordToken, hnone]
    rfl
  | keyword hmem hkind =>
    refine ⟨_, found_word (Lexicon.isWord_of_mem hmem) fun span => ?_⟩
    rw [Lexicon.wordToken, Lexicon.keyword?_of_mem hmem]
    split
    · next heq => exact absurd (Option.some.inj heq) hkind
    · next heq => rw [← Option.some.inj heq]; rfl
    · next heq => cases heq
  | truth value =>
    cases value with
    | false => exact ⟨_, found_word (by decide) fun _ => rfl⟩
    | true => exact ⟨_, found_word (by decide) fun _ => rfl⟩
  | @decimal digits hne hdigits hzero hlimit =>
    obtain ⟨c, cs, rfl⟩ := List.exists_cons_of_ne_nil hne
    exact ⟨_, found_numeral ⟨c, cs, rfl, hdigits c List.mem_cons_self⟩
      (lineFeed_not_mem_digits hdigits) hlimit
      (fun _ => Numeral.numeral?_decimal hne hdigits hzero) (Numeral.denoted?_of_digits hne hdigits)⟩
  | @binary b bits hb hne hbits hlimit =>
    have hline : '\n' ∉ '0' :: b :: bits := by
      have hnot : '\n' ∉ bits := fun hmem => absurd (hbits _ hmem) (by decide)
      rcases hb with rfl | rfl
      · simpa using hnot
      · simpa using hnot
    exact ⟨_, found_numeral ⟨'0', _, rfl, rfl⟩ hline hlimit
      (fun _ => Numeral.numeral?_binary hb hne hbits) (Numeral.denoted?_binary hb hne hbits)⟩
  | symbol hmem => exact ⟨_, found_symbol hmem⟩

end Token.Form

/-! ## From forms to tokens -/

/-- No lexeme goes on in a gap. -/
theorem Gap.apart {gap : List Char} (h : Gap gap) (hne : gap ≠ []) (rest : List Char) :
    Text.Apart isWordChar (gap ++ rest) ∧ Text.Apart isSymbolTail (gap ++ rest) := by
  cases h with
  | nil => exact absurd rfl hne
  | space hc _ =>
    simp only [Text.isSpace, Bool.or_eq_true, beq_iff_eq] at hc
    rw [List.cons_append, Text.Apart.cons_iff, Text.Apart.cons_iff]
    rcases hc with ((((rfl | rfl) | rfl) | rfl) | rfl) | rfl <;> decide
  | comment _ _ =>
    rw [List.append_assoc, List.cons_append, Text.Apart.cons_iff, Text.Apart.cons_iff]
    decide

/-- Of a text in which some forms are written come tokens of these forms. -/
theorem Rendered.yields {forms : List Token.Form} {text : List Char} (h : Rendered forms text)
    (start : Position) : ∃ tokens : List Token, tokens.map Token.form = forms ∧
      Lexicon.standard.yields start text = tokens.map .ok := by
  induction h generalizing start with
  | nil =>
    refine ⟨[], rfl, ?_⟩
    rw [Lexicon.yields, Pattern.piecesFrom, Text.firstLine]
    show (Pattern.piecesOfLine _ start [] ++ []).filterMap _ = _
    rw [Pattern.piecesOfLine_nil]
    rfl
  | @cons form forms gap text hform hgap hsep hrest ih =>
    obtain ⟨category, hfound⟩ := hform.found
    have hapart : Text.Apart isWordChar (gap ++ text) ∧ Text.Apart isSymbolTail (gap ++ text) := by
      by_cases hne : gap = []
      · -- then this is the last lexeme
        cases hrest with
        | nil => rw [hne]; exact ⟨Text.Apart.nil_iff.mpr trivial, Text.Apart.nil_iff.mpr trivial⟩
        | cons _ _ _ _ => exact absurd hne (hsep (List.cons_ne_nil _ _))
      · exact hgap.apart hne text
    obtain ⟨t, ht, hitem⟩ := hfound.token start
    obtain ⟨start', hgaps⟩ := hgap.yields Lexicon.proper_standard text
      (start.right form.text.toList.length)
    obtain ⟨tokens, htokens, hyields⟩ := ih start'
    refine ⟨t :: tokens, by rw [List.map_cons, ht, htokens], ?_⟩
    rw [Lexicon.yields_lexeme Lexicon.proper_standard hfound.line
      (hfound.lexeme _ hapart.1.firstLine hapart.2.firstLine) hitem, hgaps, hyields, List.map_cons]

theorem Lexicon.items_standard (text : String) : ∃ stop,
    (TokenStream.ofSource standard (Source.ofText text)).items =
      standard.yields ⟨1, 1⟩ text.toList ++ [.ok (Token.endOfText stop)] := by
  have hproper : standard.Proper := show "" ∉ _ by decide
  refine ⟨lastStop Position.origin (standard.pattern.pieces text.toList), ?_⟩
  rw [TokenStream.items_ofText hproper, itemsOf, yields, ← Pattern.piecesOfLines_eq]
  rfl

/-- A text in which some forms are written has tokens of these forms. -/
theorem Layout.tokenize {forms : List Token.Form} {text : String} (h : Layout forms text.toList) :
    ∃ tokens stop, ListScript.tokenize text = .ok (tokens ++ [Token.endOfText stop]) ∧
      tokens.map Token.form = forms := by
  obtain ⟨gap, rest, hgap, hrest, htext⟩ := h
  obtain ⟨start, hgaps⟩ := hgap.yields Lexicon.proper_standard rest ⟨1, 1⟩
  obtain ⟨tokens, htokens, hyields⟩ := hrest.yields start
  obtain ⟨stop, hitems⟩ := Lexicon.items_standard text
  refine ⟨tokens, stop, tokenize_of_items ?_, htokens⟩
  rw [hitems, htext, hgaps, hyields, List.map_append, List.map_singleton]

/-! ## From tokens to forms -/

theorem items_of_tokenize {text : String} {tokens : List Token} (h : tokenize text = .ok tokens) :
    (TokenStream.ofSource Lexicon.standard (Source.ofText text)).items = tokens.map .ok := by
  rw [tokenize] at h
  generalize (TokenStream.ofSource Lexicon.standard (Source.ofText text)).items = items at h
  induction items generalizing tokens with
  | nil => cases h; rfl
  | cons item items ih =>
    rw [List.mapM_cons] at h
    obtain ⟨t, ht, hrest⟩ := bind_eq_ok.mp h
    obtain ⟨ts, hts, hcons⟩ := bind_eq_ok.mp hrest
    cases hcons
    rw [ih hts, List.map_cons]
    exact congrArg (· :: _) ht

/-- What is found as a word is one. -/
theorem Category.isWord_of_word? {text found : List Char} (h : Category.word? text = some found) :
    isWord found = true := by
  cases text with
  | nil => cases h
  | cons c rest =>
    rw [word?] at h
    split at h
    · next hletter =>
      cases h
      rw [isWord, hletter, Bool.true_and, List.all_eq_true]
      exact fun _ hc => List.mem_takeWhile_imp hc
    · cases h

namespace Lexicon

theorem mem_of_lookup {entries : List (String × Kind)} {text : String} {kind : Kind}
    (h : entries.lookup text = some kind) : (text, kind) ∈ entries := by
  obtain ⟨before, after, rfl, -⟩ := List.lookup_eq_some_iff.mp h
  exact List.mem_append_right _ List.mem_cons_self

/-- The form of the token of a word has a spelling. -/
theorem spelled_wordToken {text : String} (h : isWord text.toList = true) (span : Span) :
    (standard.wordToken text span).form.Spelled := by
  have htruth : ∀ entry ∈ standardKeywords, entry.2 = .boolean →
      entry.1 = toString (entry.1 == "true") := by decide
  unfold wordToken
  split
  · next hkind =>
    have heq := htruth (text, .boolean) (mem_of_lookup hkind) rfl
    have hspelled := Token.Form.Spelled.truth (text == "true")
    rwa [← heq] at hspelled
  · next kind hboolean hkind =>
    exact .keyword (mem_of_lookup hkind) hboolean
  · next hnone =>
    refine .name h fun kind hmem => ?_
    rw [keyword?_of_mem hmem] at hnone
    cases hnone

/-- The form of the token of a numeral has a spelling. -/
theorem spelled_numeralToken {text chars : List Char} {span : Span} {t : Token}
    (hnumeral : Category.numeral? text = some chars)
    (ht : numeralToken (String.ofList chars) span = .ok t) : t.form.Spelled := by
  rw [numeralToken, String.toList_ofList] at ht
  rcases Numeral.numeral?_inv hnumeral with ⟨hne, hdigits, hzero⟩ | ⟨b, bits, rfl, hb, hne, hbits⟩
  · rw [Numeral.denoted?_of_digits hne hdigits] at ht
    dsimp only at ht
    split at ht
    · next hlimit => cases ht; exact .decimal hne hdigits hzero hlimit
    · cases ht
  · rw [Numeral.denoted?_binary hb hne hbits] at ht
    dsimp only at ht
    split at ht
    · next hlimit => cases ht; exact .binary hb hne hbits hlimit
    · cases ht

/-- The form of a token of any text has a spelling. -/
theorem spelled_item {text chars : List Char} {category : Option Category} {span : Span} {t : Token}
    (hfound : standard.pattern.lexeme? text = some ⟨chars, category⟩)
    (ht : standard.item? (.lexeme (String.ofList chars) category span) = some (.ok t)) :
    t.form.Spelled := by
  unfold Pattern.lexeme? at hfound
  split at hfound
  · next found hword =>
    cases hfound
    cases ht
    refine spelled_wordToken ?_ span
    rw [String.toList_ofList]
    exact Category.isWord_of_word? hword
  · split at hfound
    · next found hnumeral =>
      cases hfound
      exact spelled_numeralToken hnumeral (Option.some.inj ht)
    · split at hfound
      · cases hfound
        cases ht
      · split at hfound
        · next symbol hsymbol =>
          cases hfound
          have htoken : standard.symbolToken _ span = .ok t := Option.some.inj ht
          unfold symbolToken at htoken
          split at htoken
          · next kind hkind => cases htoken; exact .symbol (mem_of_lookup hkind)
          · cases htoken
        · cases hfound

end Lexicon

/-- The tokens of a text end with the end of the text, and all others have forms with a spelling. -/
theorem Token.Form.Spelled.of_tokenize {text : String} {tokens : List Token}
    (h : tokenize text = .ok tokens) : ∃ init stop, tokens = init ++ [Token.endOfText stop] ∧
      ∀ t ∈ init, t.form.Spelled := by
  obtain ⟨stop, hitems⟩ := Lexicon.items_standard text
  rw [items_of_tokenize h] at hitems
  obtain ⟨init, last, rfl, hinit, hlast⟩ := List.map_eq_append_iff.mp hitems
  obtain ⟨t, rfl, ht⟩ := List.map_eq_singleton_iff.mp hlast
  cases ht
  refine ⟨init, stop, rfl, fun t ht => ?_⟩
  have hmem : .ok t ∈ Lexicon.standard.yields ⟨1, 1⟩ text.toList := by
    rw [← hinit]
    exact List.mem_map_of_mem ht
  rw [Lexicon.yields, ← Pattern.piecesOfLines_eq] at hmem
  obtain ⟨piece, hpiece, hitem⟩ := List.mem_filterMap.mp hmem
  cases Pattern.foundBy_of_mem_piecesOfLines Lexicon.proper_standard hpiece with
  | malformed => cases hitem
  | lexeme found => exact Lexicon.spelled_item found hitem

theorem Token.Form.Spelled.kind_ne {form : Token.Form} (h : form.Spelled) :
    form.kind ≠ .endOfText := by
  have hkeywords : ∀ entry ∈ Lexicon.standardKeywords, entry.2 ≠ .endOfText := by decide
  have hsymbols : ∀ entry ∈ Lexicon.standardSymbols, entry.2 ≠ .endOfText := by decide
  cases h with
  | keyword hmem _ => exact hkeywords _ hmem
  | symbol hmem => exact hsymbols _ hmem
  | name | truth | decimal | binary => exact Kind.noConfusion

/-- Lexemes with single spaces between them. -/
theorem Rendered.of_intercalate {forms : List Token.Form} (h : ∀ form ∈ forms, form.Spelled) :
    Rendered forms (" ".intercalate (forms.map Token.Form.text)).toList := by
  induction forms with
  | nil => exact .nil
  | cons form forms ih =>
    obtain ⟨hform, hforms⟩ := List.forall_mem_cons.mp h
    cases forms with
    | nil =>
      have hlast := Rendered.cons hform .nil (fun hne => absurd rfl hne) .nil
      rw [List.append_nil, List.append_nil] at hlast
      exact hlast
    | cons next rest =>
      have hspace : Gap [' '] := .space (by decide) .nil
      have hmore := Rendered.cons hform hspace (fun _ => List.cons_ne_nil _ _) (ih hforms)
      rw [List.map_cons, List.map_cons, String.intercalate_cons_cons, String.toList_append,
        String.toList_append, List.append_assoc]
      exact hmore

/-- Texts in which lexemes are written one after the other have the tokens of these lexemes, however
they are laid out; and the tokens of any text are tokens of such lexemes, so that they are found again
in their texts with single spaces in between. -/
theorem tokens_written_and_read :
    (∀ forms (text : String), Layout forms text.toList → ∃ tokens stop,
      tokenize text = .ok (tokens ++ [Token.endOfText stop]) ∧ tokens.map Token.form = forms) ∧
    ∀ text tokens, tokenize text = .ok tokens → ∃ init stop,
      tokens = init ++ [Token.endOfText stop] ∧
      (∀ t ∈ init, t.kind ≠ .endOfText ∧ t.form.Spelled) ∧
      ∃ again stop', tokenize (" ".intercalate (init.map Token.text)) =
        .ok (again ++ [Token.endOfText stop']) ∧ again.map Token.form = init.map Token.form := by
  refine ⟨fun forms text h => h.tokenize, fun text tokens h => ?_⟩
  obtain ⟨init, stop, rfl, hinit⟩ := Token.Form.Spelled.of_tokenize h
  refine ⟨init, stop, rfl, fun t ht => ⟨(hinit t ht).kind_ne, hinit t ht⟩, ?_⟩
  have hforms : ∀ form ∈ init.map Token.form, form.Spelled := by
    intro form hform
    obtain ⟨t, ht, rfl⟩ := List.mem_map.mp hform
    exact hinit t ht
  have hrendered := Rendered.of_intercalate hforms
  rw [List.map_map] at hrendered
  have hlayout : Layout (init.map Token.form) (" ".intercalate (init.map Token.text)).toList :=
    ⟨[], _, .nil, hrendered, rfl⟩
  exact hlayout.tokenize

/-- For example a name that begins with a reserved word, a binary numeral and a symbol, with comments
around them. -/
theorem tokens_written_and_read_fortune :
    let forms : List Token.Form := [⟨"fortune", .identifier, none⟩,
      ⟨"0B101", .numeral, some (.int 5)⟩, ⟨"==", .equal, none⟩]
    Layout forms "// = for\nfortune\t0B101// é\n==".toList ∧ ∃ tokens stop,
      tokenize "// = for\nfortune\t0B101// é\n==" = .ok (tokens ++ [Token.endOfText stop]) ∧
      tokens.map Token.form = forms ∧ ∃ again stop',
        tokenize "fortune 0B101 ==" = .ok (again ++ [Token.endOfText stop']) ∧
        again.map Token.form = forms := by
  intro forms
  have hname : Token.Form.Spelled ⟨"fortune", .identifier, none⟩ := by
    refine .name (by decide) fun kind hmem => ?_
    have hnot : "fortune" ∉ Lexicon.standardKeywords.map Prod.fst := by decide
    exact hnot (List.mem_map_of_mem hmem)
  have hnumeral : Token.Form.Spelled ⟨"0B101", .numeral, some (.int 5)⟩ :=
    .binary (.inr rfl) (List.cons_ne_nil '1' ['0', '1']) (by simp [isBit]) (by decide)
  have hsymbol : Token.Form.Spelled ⟨"==", .equal, none⟩ := .symbol (by decide)
  have hlayout : Layout forms "// = for\nfortune\t0B101// é\n==".toList := by
    refine ⟨"// = for\n".toList, "fortune\t0B101// é\n==".toList, ?_, ?_, by decide⟩
    · exact @Gap.comment " = for".toList [] (by decide) .nil
    · have htab : Gap ['\t'] := .space (by decide) .nil
      have hcomment : Gap "// é\n".toList := @Gap.comment " é".toList [] (by decide) .nil
      have hlast := Rendered.cons hsymbol .nil (fun hne => absurd rfl hne) .nil
      have hlater := Rendered.cons hnumeral hcomment (fun _ => by decide) hlast
      exact .cons hname htab (fun _ => by decide) hlater
  obtain ⟨tokens, stop, htokens, hforms⟩ := tokens_written_and_read.1 forms _ hlayout
  obtain ⟨init, stop', heq, -, hagain⟩ := tokens_written_and_read.2 _ _ htokens
  obtain ⟨rfl, -⟩ := List.append_inj' heq rfl
  have htexts : tokens.map Token.text = forms.map Token.Form.text := by
    rw [← hforms, List.map_map]
    rfl
  rw [htexts, hforms] at hagain
  exact ⟨hlayout, tokens, stop, htokens, hforms, hagain⟩

end ListScript
