import ListScript.Proofs.Printing
import ListScript.Proofs.Recognition

/-!
# What is written is read back

* `goesOn`, `joins` : the characters that would join what is written before them;
* `Expr.apart_source`, `Block.apart_source` : no tree begins with one that joins a space or a symbol;
* `Written text R` : in front of a text that does not join it, `text` puts a row of `R` in front of
  the rows of that text; `Written.append`, `Written.spaced`, `Written.bracketed` : how texts are put
  together;
* `Expr.written`, `Exprs.written`, `Stmt.written`, `Block.written` : a tree is written with the rows
  that the grammar derives for it;
* `Block.exists_items_source` : so the tokens of its text are those of a derivation;
* `parse_source` : a program that is written as text, in either style, is read back from it.
-/

namespace ListScript

/-- The characters that would make a word, a numeral or a symbol go on. -/
def goesOn (c : Char) : Bool := isWordChar c || isSymbolTail c

/-- The characters that would join a separator or a symbol. -/
def joins (c : Char) : Bool := Text.isSpace c || isSymbolTail c

namespace Text.Apart

variable {text : List Char}

theorem word (h : Text.Apart goesOn text) : Text.Apart isWordChar text :=
  h.mono fun c hc => by rw [goesOn, hc, Bool.true_or]

theorem symbol (h : Text.Apart goesOn text) : Text.Apart isSymbolTail text :=
  h.mono fun c hc => by rw [goesOn, hc, Bool.or_true]

theorem space (h : Text.Apart joins text) : Text.Apart Text.isSpace text :=
  h.mono fun c hc => by rw [joins, hc, Bool.true_or]

theorem tail (h : Text.Apart joins text) : Text.Apart isSymbolTail text :=
  h.mono fun c hc => by rw [joins, hc, Bool.or_true]

theorem of_word {word : List Char} (hne : word ≠ []) (hword : ∀ c ∈ word, isWordChar c = true)
    (rest : List Char) : Text.Apart joins (word ++ rest) := by
  obtain ⟨c, cs, rfl⟩ := List.exists_cons_of_ne_nil hne
  exact cons_iff.mpr (isWordChar_apart (hword c List.mem_cons_self))

end Text.Apart

/-! ## Literals and names -/

/-- A literal that is not negative is written in decimal digits. -/
theorem toList_toString_of_nonneg {value : Int64} (h : 0 ≤ value.toInt) :
    (toString value.toInt).toList = Nat.toDigits 10 value.toInt.toNat := by
  rw [Int.toString_eq_repr, Int.repr_eq_if, if_pos h, Nat.toList_repr]

theorem Text.Apart.digits (n : Nat) (rest : List Char) :
    Text.Apart joins (Nat.toDigits 10 n ++ rest) := by
  refine .of_word Nat.toDigits_ne_nil (fun c hc => ?_) rest
  rw [isWordChar, Numeral.isDigit_of_mem_toDigits hc, Bool.or_true]

/-- It is the number that these digits denote, and in range. -/
theorem ofNat_toNat_of_nonneg {value : Int64} (h : 0 ≤ value.toInt) :
    Int64.ofNat value.toInt.toNat = value ∧ value.toInt.toNat < Numeral.limit := by
  have hcast : (value.toInt.toNat : Int) = value.toInt := Int.toNat_of_nonneg h
  refine ⟨?_, ?_⟩
  · rw [← Int64.ofInt_eq_ofNat, hcast, Int64.ofInt_toInt]
  · have hlt := value.toInt_lt
    rw [Numeral.limit]
    omega

theorem Ident.isWord_of_isPlain {ident : Ident} (h : ident.isPlain = true) :
    isWord ident.name.toList = true ∧ Lexicon.standard.keyword? ident.name = none := by
  rw [isPlain, Bool.and_eq_true, Option.isNone_iff_eq_none] at h
  exact h

theorem isWord_ne_nil {word : List Char} (h : isWord word = true) : word ≠ [] := by
  rintro rfl
  cases h

theorem Ident.apart_source {ident : Ident} (h : ident.isPlain = true) (rest : List Char) :
    Text.Apart joins (ident.name.toList ++ rest) :=
  have hword := (isWord_of_isPlain h).1
  .of_word (isWord_ne_nil hword) (isWordChar_of_mem hword) rest

/-- A truth value is a reserved word. -/
theorem Spells.truth {value : Bool} {rest : List Char} {L : Language Token}
    (h : Spells rest L) (hapart : Text.Apart isWordChar rest) :
    Spells ((toString value).toList ++ rest)
      ((Token.row fun t => t.kind = .boolean ∧ t.literal = some (.bool value)) * L) := by
  cases value with
  | true => exact h.word (by decide) (fun _ => ⟨rfl, rfl⟩) hapart
  | false => exact h.word (by decide) (fun _ => ⟨rfl, rfl⟩) hapart

/-! ## Where a tree begins -/

namespace Expr

theorem apart_source (style : Style) : ∀ {e : Expr}, e.isPlain = true → ∀ l rest,
    Text.Apart joins ((e.source style l).toList ++ rest)
  | .unary op operand, _, l, rest => by
    rw [source, String.toList_append]
    cases op <;> rfl
  | .binary op left right, h, l, rest => by
    rw [isPlain, Bool.and_eq_true] at h
    rw [source]
    split
    · simp only [String.toList_append]
      rfl
    · simp only [String.toList_append, List.append_assoc]
      exact apart_source style h.1 _ _
  | .int value, h, l, rest => by
    rw [isPlain, decide_eq_true_eq] at h
    rw [source, toList_toString_of_nonneg h]
    exact .digits _ rest
  | .bool value, _, _, _ => by
    rw [source]
    cases value <;> rfl
  | .list items, _, _, _ => by
    rw [source, String.toList_append, String.toList_append]
    rfl
  | .var ident, h, _, rest => Ident.apart_source h rest

end Expr

theorem Exprs.apart_source (style : Style) {es : Exprs} (h : es.isPlain = true)
    (rest : List Char) : Text.Apart joins ((es.source style).toList ++ rest) := by
  cases es with
  | one item => exact Expr.apart_source style h _ _
  | more item items =>
    rw [isPlain, Bool.and_eq_true] at h
    rw [source, String.toList_append, String.toList_append, List.append_assoc, List.append_assoc]
    exact Expr.apart_source style h.1 _ _

/-- A statement begins with a letter. -/
theorem Stmt.apart_source (style : Style) {s : Stmt} (h : s.isPlain = true) (rest : List Char) :
    Text.Apart joins ((s.source style).toList ++ rest) := by
  cases s with
  | declare ident value =>
    simp only [Stmt.source, String.toList_append]
    rfl
  | assign ident value =>
    rw [Stmt.isPlain, Bool.and_eq_true] at h
    simp only [Stmt.source, String.toList_append, List.append_assoc]
    exact Ident.apart_source h.1 _
  | print value =>
    simp only [Stmt.source, String.toList_append]
    rfl
  | forEach ident items body =>
    simp only [Stmt.source, String.toList_append]
    rfl

theorem Block.apart_source (style : Style) {b : Block} (h : b.isPlain = true) (rest : List Char) :
    Text.Apart joins ((b.source style).toList ++ rest) := by
  cases b with
  | one stmt => exact Stmt.apart_source style h rest
  | more stmt stmts =>
    rw [Block.isPlain, Bool.and_eq_true] at h
    simp only [Block.source, String.toList_append, List.append_assoc]
    exact Stmt.apart_source style h.1 _

/-! ## Texts that are written -/

/-- In front of a text that does not join it, what is written puts a row of `R` in front of the rows
of the text. -/
def Written (text : String) (R : Language Token) : Prop :=
  ∀ (rest : List Char) (L : Language Token), Spells rest L → Text.Apart goesOn rest →
    Spells (text.toList ++ rest) (R * L)

namespace Written

variable {text text' : String} {R R' : Language Token}

theorem mono (h : Written text R) (hle : R ≤ R') : Written text R' :=
  fun rest L hrest hapart => (h rest L hrest hapart).mono (by gcongr)

theorem congr (h : Written text R) (heq : text.toList = text'.toList) : Written text' R := by
  rwa [String.toList_inj.mp heq] at h

theorem symbol {symbol : String} {kind : Kind} (h : (symbol, kind) ∈ Lexicon.standardSymbols) :
    Written symbol kind.row :=
  fun _ _ hrest hapart => hrest.symbol h hapart.symbol

theorem keyword {word : String} {kind : Kind} (h : (word, kind) ∈ Lexicon.standardKeywords) :
    Written word kind.row :=
  fun _ _ hrest hapart => hrest.keyword h hapart.word

theorem ident {ident : Ident} (h : ident.isPlain = true) : Written ident.name ident.row := by
  intro rest L hrest hapart
  obtain ⟨hword, hkeyword⟩ := Ident.isWord_of_isPlain h
  refine hrest.word hword (fun span => ⟨?_, Lexicon.text_wordToken _ _ _⟩) hapart.word
  rw [Lexicon.kind_wordToken, hkeyword, Option.getD_none]

/-- One text may stand right after another if it does not join it. -/
theorem append (h : Written text R) (h' : Written text' R')
    (hapart : ∀ rest, Text.Apart goesOn (text'.toList ++ rest)) :
    Written (text ++ text') (R * R') := by
  intro rest L hrest hapart'
  rw [String.toList_append, List.append_assoc, mul_assoc]
  exact h _ _ (h' rest L hrest hapart') (hapart rest)

/-- With a space between them it must not begin with another. -/
theorem spaced (h : Written text R) (h' : Written text' R')
    (hapart : ∀ rest, Text.Apart Text.isSpace (text'.toList ++ rest)) :
    Written (text ++ " " ++ text') (R * R') := by
  intro rest L hrest hapart'
  rw [String.toList_append, String.toList_append, List.append_assoc, List.append_assoc, mul_assoc]
  exact h _ _ ((h' rest L hrest hapart').space (hapart rest)) rfl

/-- A symbol may stand right before a text whose first character does not make another of it. -/
theorem after {symbol : String} {kind : Kind} (h : Written text R)
    (hapart : ∀ rest, Text.Apart isSymbolTail (text.toList ++ rest))
    (hmem : (symbol, kind) ∈ Lexicon.standardSymbols) : Written (symbol ++ text) (kind.row * R) := by
  intro rest L hrest hapart'
  rw [String.toList_append, List.append_assoc, mul_assoc]
  exact (h rest L hrest hapart').symbol hmem (hapart rest)

/-- Brackets may stand right around a text. -/
theorem bracketed {opening closing : String} {kind kind' : Kind} (h : Written text R)
    (hapart : ∀ rest, Text.Apart isSymbolTail (text.toList ++ rest))
    (hopening : (opening, kind) ∈ Lexicon.standardSymbols)
    (hclosing : (closing, kind') ∈ Lexicon.standardSymbols)
    (hend : ∀ rest, Text.Apart goesOn (closing.toList ++ rest)) :
    Written (opening ++ text ++ closing) (kind.row * (R * kind'.row)) := by
  have hboth := (h.after hapart hopening).append (.symbol hclosing) hend
  rwa [mul_assoc] at hboth

/-- A name, a symbol and what is written after it. -/
theorem named {ident : Ident} {symbol : String} {kind : Kind} (h : Written text R)
    (hapart : ∀ rest, Text.Apart Text.isSpace (text.toList ++ rest))
    (hident : ident.isPlain = true) (hmem : (symbol, kind) ∈ Lexicon.standardSymbols)
    (hspace : ∀ rest, Text.Apart Text.isSpace (symbol.toList ++ rest)) :
    Written (ident.name ++ " " ++ symbol ++ " " ++ text) (ident.row * (kind.row * R)) := by
  have hnamed := ((Written.ident hident).spaced (.symbol hmem) hspace).spaced h hapart
  rwa [mul_assoc] at hnamed

end Written

/-! ## Expressions -/

namespace Expr

theorem written_int {value : Int64} (h : 0 ≤ value.toInt) :
    Written (toString value.toInt) ((int value).row .operand) := by
  intro rest L hrest hapart
  obtain ⟨hvalue, hlt⟩ := ofNat_toNat_of_nonneg h
  have hnumber := hrest.number hlt hapart.word
  rw [hvalue, ← toList_toString_of_nonneg h] at hnumber
  refine hnumber.mono ?_
  gcongr
  exact int_row_le value

theorem written_bool (value : Bool) : Written (toString value) ((bool value).row .operand) := by
  intro rest L hrest hapart
  refine (hrest.truth hapart.word).mono ?_
  gcongr
  exact bool_row_le value

theorem written_binary (op : BinaryOp) {left right : Expr} {text text' : String}
    (h : Written text (left.row op.leftLevel)) (h' : Written text' (right.row op.rightLevel))
    (hapart : ∀ rest, Text.Apart Text.isSpace (text'.toList ++ rest)) :
    Written (text ++ " " ++ op.symbol ++ " " ++ text') ((binary op left right).row op.level) := by
  have hop := (h.spaced (.symbol op.mem_symbols) fun _ => by cases op <;> rfl).spaced h' hapart
  rw [mul_assoc] at hop
  exact hop.mono (binary_row_le op left right)

theorem written_group {e : Expr} {text : String} (h : Written text (e.row .whole))
    (hapart : ∀ rest, Text.Apart isSymbolTail (text.toList ++ rest)) :
    Written ("(" ++ text ++ ")") (e.row .operand) := by
  have hopening : ("(", Kind.openParen) ∈ Lexicon.standardSymbols := by decide
  have hclosing : (")", Kind.closeParen) ∈ Lexicon.standardSymbols := by decide
  exact (h.bracketed hapart hopening hclosing fun _ => rfl).mono (group_row_le e)

theorem written_list {items : Exprs} {text : String} (h : Written text items.row)
    (hapart : ∀ rest, Text.Apart isSymbolTail (text.toList ++ rest)) :
    Written ("[" ++ text ++ "]") ((list items).row .operand) := by
  have hopening : ("[", Kind.openBracket) ∈ Lexicon.standardSymbols := by decide
  have hclosing : ("]", Kind.closeBracket) ∈ Lexicon.standardSymbols := by decide
  exact (h.bracketed hapart hopening hclosing fun _ => rfl).mono (list_row_le items)

end Expr

theorem Exprs.written_more {item : Expr} {rest : Exprs} {text text' : String}
    (h : Written text (item.row .whole)) (h' : Written text' rest.row)
    (hapart : ∀ rest, Text.Apart Text.isSpace (text'.toList ++ rest)) :
    Written (text ++ ", " ++ text') (more item rest).row := by
  have hcomma : (",", Kind.comma) ∈ Lexicon.standardSymbols := by decide
  have hmore := (h.append (.symbol hcomma) fun _ => rfl).spaced h' hapart
  rw [mul_assoc] at hmore
  exact (hmore.congr (by simp)).mono (more_row_le item rest)

/-- An operation that is written without parentheses is at the level that is asked for. -/
theorem Style.rank_le {style : Style} {op : BinaryOp} {l : Level}
    (h : style.wraps op l = false) : l.rank ≤ op.level.rank := by
  cases style with
  | full => cases h
  | minimal => exact Nat.not_lt.mp (of_decide_eq_false h)

mutual

/-- An expression that is written where a phrase of a level is asked for is derived there. -/
theorem Expr.written (style : Style) : ∀ {e : Expr}, e.isPlain = true → ∀ l,
    Written (e.source style l) (e.row l)
  | .unary op operand, h, l => by
    rw [Expr.isPlain] at h
    rw [Expr.source]
    have hoperand := (Expr.written style h .operand).after
      (fun _ => (Expr.apart_source style h _ _).tail) op.mem_symbols
    exact hoperand.mono ((Expr.unary_row_le op operand).trans (Expr.row_le _ l.rank_le_operand))
  | .binary op left right, h, l => by
    rw [Expr.isPlain, Bool.and_eq_true] at h
    have hbody := Expr.written_binary op (Expr.written style h.1 op.leftLevel)
      (Expr.written style h.2 op.rightLevel) fun _ => (Expr.apart_source style h.2 _ _).space
    rw [Expr.source]
    split
    · have hwhole := hbody.mono (Expr.row_le _ op.level.rank_whole_le)
      refine (Expr.written_group hwhole fun rest => ?_).mono (Expr.row_le _ l.rank_le_operand)
      simp only [String.toList_append, List.append_assoc]
      exact (Expr.apart_source style h.1 _ _).tail
    · next hwraps =>
      exact hbody.mono (Expr.row_le _ (Style.rank_le (Bool.eq_false_iff.mpr hwraps)))
  | .int value, h, l => by
    rw [Expr.isPlain, decide_eq_true_eq] at h
    exact (Expr.written_int h).mono (Expr.row_le _ l.rank_le_operand)
  | .bool value, _, l =>
    (Expr.written_bool value).mono (Expr.row_le _ l.rank_le_operand)
  | .list items, h, l => by
    rw [Expr.isPlain] at h
    rw [Expr.source]
    exact (Expr.written_list (Exprs.written style h) fun _ =>
      (Exprs.apart_source style h _).tail).mono (Expr.row_le _ l.rank_le_operand)
  | .var ident, h, l => by
    rw [Expr.isPlain] at h
    exact (Written.ident h).mono ((Expr.var_row_le ident).trans (Expr.row_le _ l.rank_le_operand))

/-- So are expressions that are written between commas. -/
theorem Exprs.written (style : Style) : ∀ {es : Exprs}, es.isPlain = true →
    Written (es.source style) es.row
  | .one item, h => by
    rw [Exprs.isPlain] at h
    exact (Expr.written style h .whole).mono (Exprs.one_row_le item)
  | .more item rest, h => by
    rw [Exprs.isPlain, Bool.and_eq_true] at h
    rw [Exprs.source]
    exact Exprs.written_more (Expr.written style h.1 .whole) (Exprs.written style h.2) fun _ =>
      (Exprs.apart_source style h.2 _).space

end

/-! ## Statements -/

namespace Stmt

variable {ident : Ident} {value : Expr} {text : String}

theorem written_assign (hident : ident.isPlain = true) (h : Written text (value.row .whole))
    (hapart : ∀ rest, Text.Apart Text.isSpace (text.toList ++ rest)) :
    Written (ident.name ++ " = " ++ text) (ident.row * (Kind.assign.row * value.row .whole)) := by
  have hmem : ("=", Kind.assign) ∈ Lexicon.standardSymbols := by decide
  have hassign := h.named hapart hident hmem fun _ => rfl
  exact hassign.congr (by simp)

theorem written_declare (hident : ident.isPlain = true) (h : Written text (value.row .whole))
    (hapart : ∀ rest, Text.Apart Text.isSpace (text.toList ++ rest)) :
    Written ("var " ++ ident.name ++ " = " ++ text) (declare ident value).row := by
  have hmem : ("var", Kind.varWord) ∈ Lexicon.standardKeywords := by decide
  have hdeclare := (Written.keyword hmem).spaced (written_assign hident h hapart) fun rest => by
    simp only [String.toList_append, List.append_assoc]
    exact (Ident.apart_source hident _).space
  exact (hdeclare.congr (by simp)).mono (declare_row_le ident value)

theorem written_print (h : Written text (value.row .whole))
    (hapart : ∀ rest, Text.Apart Text.isSpace (text.toList ++ rest)) :
    Written ("print " ++ text) (print value).row := by
  have hmem : ("print", Kind.printWord) ∈ Lexicon.standardKeywords := by decide
  exact (((Written.keyword hmem).spaced h hapart).congr (by simp)).mono (print_row_le value)

theorem written_forEach {body : Block} {text' : String} (hident : ident.isPlain = true)
    (h : Written text (value.row .whole)) (h' : Written text' body.row)
    (hapart : ∀ rest, Text.Apart Text.isSpace (text.toList ++ rest))
    (hapart' : ∀ rest, Text.Apart isSymbolTail (text'.toList ++ rest)) :
    Written ("for " ++ ident.name ++ " : " ++ text ++ " \x7b" ++ text' ++ "\x7d")
      (forEach ident value body).row := by
  have hfor : ("for", Kind.forWord) ∈ Lexicon.standardKeywords := by decide
  have hcolon : (":", Kind.colon) ∈ Lexicon.standardSymbols := by decide
  have hopening : ("\x7b", Kind.openBrace) ∈ Lexicon.standardSymbols := by decide
  have hclosing : ("\x7d", Kind.closeBrace) ∈ Lexicon.standardSymbols := by decide
  have hblock := h'.bracketed hapart' hopening hclosing fun _ => rfl
  have hitems := h.spaced hblock fun _ => by
    simp only [String.toList_append]
    rfl
  have hnamed := hitems.named (fun rest => by
    simp only [String.toList_append, List.append_assoc]
    exact hapart _) hident hcolon fun _ => rfl
  have hloop := (Written.keyword hfor).spaced hnamed fun rest => by
    simp only [String.toList_append, List.append_assoc]
    exact (Ident.apart_source hident _).space
  exact (hloop.congr (by simp)).mono (forEach_row_le ident value body)

end Stmt

theorem Block.written_more {stmt : Stmt} {rest : Block} {text text' : String}
    (h : Written text stmt.row) (h' : Written text' rest.row)
    (hapart : ∀ rest, Text.Apart isSymbolTail (text'.toList ++ rest)) :
    Written (text ++ ";" ++ text') (more stmt rest).row := by
  have hmem : (";", Kind.semicolon) ∈ Lexicon.standardSymbols := by decide
  have hmore := h.append (h'.after hapart hmem) fun _ => by
    simp only [String.toList_append]
    rfl
  exact (hmore.congr (by simp)).mono (more_row_le stmt rest)

mutual

/-- A statement that is written is derived. -/
theorem Stmt.written (style : Style) : ∀ {s : Stmt}, s.isPlain = true →
    Written (s.source style) s.row
  | .declare ident value, h => by
    rw [Stmt.isPlain, Bool.and_eq_true] at h
    rw [Stmt.source]
    exact Stmt.written_declare h.1 (Expr.written style h.2 .whole) fun _ =>
      (Expr.apart_source style h.2 _ _).space
  | .assign ident value, h => by
    rw [Stmt.isPlain, Bool.and_eq_true] at h
    rw [Stmt.source]
    exact (Stmt.written_assign h.1 (Expr.written style h.2 .whole) fun _ =>
      (Expr.apart_source style h.2 _ _).space).mono (Stmt.assign_row_le ident value)
  | .print value, h => by
    rw [Stmt.isPlain] at h
    rw [Stmt.source]
    exact Stmt.written_print (Expr.written style h .whole) fun _ =>
      (Expr.apart_source style h _ _).space
  | .forEach ident items body, h => by
    rw [Stmt.isPlain, Bool.and_eq_true, Bool.and_eq_true] at h
    obtain ⟨⟨hident, hitems⟩, hbody⟩ := h
    rw [Stmt.source]
    exact Stmt.written_forEach hident (Expr.written style hitems .whole)
      (Block.written style hbody) (fun _ => (Expr.apart_source style hitems _ _).space) fun _ =>
        (Block.apart_source style hbody _).tail

/-- So are statements that are written between semicolons. -/
theorem Block.written (style : Style) : ∀ {b : Block}, b.isPlain = true →
    Written (b.source style) b.row
  | .one stmt, h => by
    rw [Block.isPlain] at h
    exact (Stmt.written style h).mono (Block.one_row_le stmt)
  | .more stmt rest, h => by
    rw [Block.isPlain, Bool.and_eq_true] at h
    rw [Block.source]
    exact Block.written_more (Stmt.written style h.1) (Block.written style h.2) fun _ =>
      (Block.apart_source style h.2 _).tail

end

/-! ## Programs -/

theorem tokenize_of_items {text : String} {tokens : List Token}
    (h : (TokenStream.ofSource Lexicon.standard (Source.ofText text)).items = tokens.map .ok) :
    tokenize text = .ok tokens := by
  rw [tokenize, h]
  clear h
  induction tokens with
  | nil => rfl
  | cons t ts ih => rw [List.map_cons, List.mapM_cons, ih]; rfl

/-- The tokens of a program that can be written are derived from its tree but for the places of its
names. -/
theorem Block.exists_items_source (style : Style) {program : Block} (h : program.isPlain = true) :
    ∃ d : ProgramPhrase, d.tree.unplaced = program.unplaced ∧
      (TokenStream.ofSource Lexicon.standard (Source.ofText (program.source style))).items =
        d.tokens.map .ok := by
  have hspells := Block.written style h [] 1 .nil (Text.Apart.nil_iff.mpr trivial)
  rw [List.append_nil, mul_one] at hspells
  obtain ⟨tokens, ⟨d, htree, rfl⟩, stop, hitems⟩ := hspells.items
  exact ⟨⟨d, ⟨Token.endOfText stop, rfl⟩⟩, htree, hitems⟩

/-- A program that can be written is read back from its text, whichever parentheses are written: the
text falls into tokens, and they are those of the program but for the places of its names. -/
theorem parse_source (style : Style) {program : Block} (h : program.isPlain = true) :
    (∃ tokens, tokenize (program.source style) = .ok tokens) ∧
    ∃ p s, parse (TokenStream.ofSource Lexicon.standard (Source.ofText (program.source style))) =
      .ok p s ∧ p.unplaced = program.unplaced := by
  obtain ⟨d, htree, hitems⟩ := Block.exists_items_source style h
  obtain ⟨s, hs⟩ := parse_of_derivation hitems d rfl
  exact ⟨⟨_, tokenize_of_items hitems⟩, _, s, hs, htree⟩

/-- A program with a loop, in which some parentheses are needed and others are not. -/
def sampleProgram : Block :=
  let y : Expr := .var ⟨"y", ⟨3, 1⟩⟩
  .more (.declare ⟨"x1", ⟨1, 5⟩⟩
      (.binary .multiply (.binary .add (.int 1) (.int 20)) (.unary .negate (.int 0))))
    (.one (.forEach ⟨"y", ⟨2, 5⟩⟩ (.list (.more (.bool true) (.one (.unary .not (.bool false)))))
      (.one (.print (.binary .cons (.binary .and y (.binary .equal y y)) (.list (.one y)))))))

/-- It is read back from its text with only the parentheses that it needs. -/
theorem parse_source_sampleProgram :
    sampleProgram.isPlain = true ∧
    sampleProgram.source .minimal =
      "var x1 = (1 + 20) * -0;for y : [true, !false] \x7bprint y && y == y :: [y]\x7d" ∧
    (∃ tokens, tokenize (sampleProgram.source .minimal) = .ok tokens) ∧
    ∃ p s, parse (TokenStream.ofSource Lexicon.standard
      (Source.ofText (sampleProgram.source .minimal))) = .ok p s ∧
      p.unplaced = sampleProgram.unplaced := by
  have h : sampleProgram.isPlain = true := by decide
  exact ⟨h, by decide, parse_source .minimal h⟩

end ListScript
