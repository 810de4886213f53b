import ListScript.Proofs.TokenRun
import Mathlib.Data.List.Find

/-!
# Line breaks

No lexeme goes on in the next line, and nothing of a line is remembered in the next one. So what comes
of two texts with a line break between them is what comes of each, that of the second further down.

* `Position.down`, `Token.down`, `TokenStream.itemDown` and so on : the same `n` lines further down;
* `Pattern.lexeme?_append_lineFeed` : what a line feed changes at the end of a line;
* `Lexicon.items_append_lineFeed` : nothing comes of a line feed;
* `items_lineBreak` : what comes of two texts with a line break between them.
-/

namespace ListScript

/-! ## Further down -/

/-- The place `n` lines further down in the same column. -/
def Position.down (n : Nat) (p : Position) : Position := ⟨p.line + n, p.column⟩

/-- The stretch of text `n` lines further down. -/
def Span.down (n : Nat) (span : Span) : Span := ⟨span.start.down n, span.stop.down n⟩

/-- The same token `n` lines further down. -/
def Token.down (n : Nat) (t : Token) : Token := { t with span := t.span.down n }

/-- The same error `n` lines further down. -/
def LexemeError.down (n : Nat) : LexemeError → LexemeError
  | .malformed text position => .malformed text (position.down n)
  | .unreadable position cause => .unreadable (position.down n) cause
  | .exhausted => .exhausted

/-- The same error `n` lines further down. -/
def TokenError.down (n : Nat) : TokenError → TokenError
  | .lexeme error => .lexeme (error.down n)
  | .outOfRange text position => .outOfRange text (position.down n)
  | .noCurrentToken => .noCurrentToken
  | .wrongKind expected found => .wrongKind expected found
  | .pastEnd => .pastEnd

/-- The same item of an iteration `n` lines further down. -/
def TokenStream.itemDown (n : Nat) :
    Except (Stop TokenError) Token → Except (Stop TokenError) Token
  | .ok t => .ok (t.down n)
  | .error stop => .error (stop.map (TokenError.down n))

/-- The same piece of a text `n` lines further down. -/
def Piece.down (n : Nat) : Piece → Piece
  | .lexeme text category span => .lexeme text category (span.down n)
  | .malformed text position => .malformed text (position.down n)

namespace Pattern

variable {p : Pattern}

/-- A line further down has the same pieces further down. -/
theorem piecesOfLine_down (hp : p.Proper) (n : Nat) (line : List Char) (start : Position) :
    p.piecesOfLine (start.down n) line = (p.piecesOfLine start line).map (Piece.down n) := by
  induction line using line_induction hp generalizing start with
  | nil => rw [piecesOfLine_nil, piecesOfLine_nil, List.map_nil]
  | lexeme lexeme rest h ih =>
    rw [piecesOfLine_of_lexeme hp h, piecesOfLine_of_lexeme hp h, List.map_cons, ← ih]
    rfl
  | malformed c rest h ih =>
    rw [piecesOfLine_of_none h, piecesOfLine_of_none h, List.map_cons, ← ih]
    rfl

theorem piecesOfLines_down (hp : p.Proper) (n number : Nat) (lines : List (List Char)) :
    p.piecesOfLines (number + n) lines = (p.piecesOfLines number lines).map (Piece.down n) := by
  induction lines generalizing number with
  | nil => rfl
  | cons line lines ih =>
    rw [piecesOfLines, piecesOfLines, List.map_append, ← ih, ← piecesOfLine_down hp,
      Nat.add_right_comm]
    rfl

theorem piecesOfLines_append (number : Nat) (lines more : List (List Char)) :
    p.piecesOfLines number (lines ++ more) =
      p.piecesOfLines number lines ++ p.piecesOfLines (number + lines.length) more := by
  induction lines generalizing number with
  | nil => rfl
  | cons line lines ih =>
    rw [List.cons_append, piecesOfLines, piecesOfLines, ih, List.append_assoc, List.length_cons,
      Nat.add_assoc, Nat.add_comm 1]

end Pattern

/-- What comes of a piece further down is further down. -/
theorem Lexicon.item?_down (lexicon : Lexicon) (n : Nat) (piece : Piece) :
    lexicon.item? (piece.down n) = (lexicon.item? piece).map (TokenStream.itemDown n) := by
  rcases piece with ⟨text, _ | _ | _ | _, span⟩ | ⟨text, position⟩
  · show some (lexicon.symbolToken text (span.down n)) = _
    simp only [item?, symbolToken, Option.map_some]
    cases lexicon.symbol? text <;> rfl
  · show some (Except.ok (lexicon.wordToken text (span.down n))) = _
    simp only [item?, wordToken, Option.map_some, TokenStream.itemDown]
    split <;> rfl
  · show some (numeralToken text (span.down n)) = _
    simp only [item?, numeralToken, Option.map_some]
    split
    · rfl
    · split <;> rfl
  · rfl
  · rfl

/-! ## A line feed at the end of a line -/

section LineFeed

variable {text : List Char}

/-- A line feed does not belong to a run of other characters. -/
theorem takeWhile_append_lineFeed {q : Char → Bool} (hq : q '\n' = false) (text : List Char) :
    (text ++ ['\n']).takeWhile q = text.takeWhile q := by
  induction text with
  | nil => simp [hq]
  | cons c text ih =>
    rw [List.cons_append, List.takeWhile_cons, List.takeWhile_cons, ih]

namespace Category

theorem word?_append_lineFeed (text : List Char) : word? (text ++ ['\n']) = word? text := by
  cases text with
  | nil => rfl
  | cons c text =>
    simp only [List.cons_append, word?, takeWhile_append_lineFeed (q := isWordChar) rfl]

theorem numeral?_cons_of_ne_zero {c : Char} (h : c ≠ '0') (rest : List Char) :
    numeral? (c :: rest) = if isDigit c then some (c :: rest.takeWhile isDigit) else none := by
  unfold numeral?
  split
  · next heq => cases heq
  · next heq => cases heq; exact absurd rfl h
  · next heq => cases heq; rfl

theorem numeral?_append_lineFeed (text : List Char) :
    numeral? (text ++ ['\n']) = numeral? text := by
  cases text with
  | nil => rfl
  | cons c rest =>
    by_cases hc : c = '0'
    · subst hc
      rcases rest with _ | ⟨b, _ | ⟨bit, more⟩⟩
      · rfl
      · simp [numeral?, isBit]
      · simp only [List.cons_append, numeral?, takeWhile_append_lineFeed (q := isBit) rfl]
    · rw [List.cons_append, numeral?_cons_of_ne_zero hc, numeral?_cons_of_ne_zero hc,
        takeWhile_append_lineFeed rfl]

theorem blank?_cons {c : Char} {rest : List Char} (h : ∀ more, c :: rest ≠ '/' :: '/' :: more) :
    blank? (c :: rest) =
      if Text.isSpace c then some (c :: rest.takeWhile Text.isSpace) else none := by
  unfold blank?
  split
  · next heq => exact absurd heq (h _)
  · next heq => cases heq; rfl
  · next heq => cases heq

/-- A run of blanks takes in a line feed behind it, and nothing else does. -/
theorem blank?_append_lineFeed (h : text ≠ []) :
    blank? (text ++ ['\n']) = blank? text ∨
      blank? text = some text ∧ blank? (text ++ ['\n']) = some (text ++ ['\n']) := by
  obtain ⟨c, rest, rfl⟩ := List.exists_cons_of_ne_nil h
  by_cases hcomment : ∃ more, c :: rest = '/' :: '/' :: more
  · obtain ⟨more, heq⟩ := hcomment
    left
    rw [heq]
    simp only [List.cons_append, blank?, takeWhile_append_lineFeed (q := (· != '\n')) rfl]
  · have hno : ∀ more, c :: rest ≠ '/' :: '/' :: more := fun more heq => hcomment ⟨more, heq⟩
    have hno' : ∀ more, c :: (rest ++ ['\n']) ≠ '/' :: '/' :: more := by
      rintro more heq
      rcases rest with _ | ⟨c', rest⟩
      · cases heq
      · cases heq
        exact hno _ rfl
    rw [List.cons_append, blank?_cons hno, blank?_cons hno']
    cases hc : Text.isSpace c with
    | false => exact .inl rfl
    | true =>
      simp only [if_true]
      rw [List.takeWhile_append]
      by_cases hall : (rest.takeWhile Text.isSpace).length = rest.length
      · right
        have hfeed : ['\n'].takeWhile Text.isSpace = ['\n'] := rfl
        rw [if_pos hall, (List.takeWhile_prefix Text.isSpace).eq_of_length hall, hfeed]
        exact ⟨rfl, rfl⟩
      · left
        rw [if_neg hall]

end Category

namespace Pattern

variable {p : Pattern}

/-- No symbol has a line feed in it. -/
def OnLine (p : Pattern) : Prop := ∀ symbol ∈ p.symbols, '\n' ∉ symbol.toList

theorem isPrefixOf_append_lineFeed {symbol : List Char} (h : '\n' ∉ symbol) (text : List Char) :
    symbol.isPrefixOf (text ++ ['\n']) = symbol.isPrefixOf text := by
  rw [Bool.eq_iff_iff, List.isPrefixOf_iff_prefix, List.isPrefixOf_iff_prefix,
    List.prefix_concat_iff]
  apply or_iff_right
  rintro rfl
  exact h (by simp)

theorem find?_append_lineFeed (hp : p.OnLine) (text : List Char) :
    p.symbols.find? (fun symbol => symbol.toList.isPrefixOf (text ++ ['\n'])) =
      p.symbols.find? fun symbol => symbol.toList.isPrefixOf text := by
  apply List.find?_congr
  intro symbol hsymbol
  exact isPrefixOf_append_lineFeed (hp symbol hsymbol) text

/-- A line feed at the end of a line is taken in by blanks that go up to it, and otherwise changes
nothing. -/
theorem lexeme?_append_lineFeed (hp : p.OnLine) (h : text ≠ []) :
    p.lexeme? (text ++ ['\n']) = p.lexeme? text ∨ p.lexeme? text = some ⟨text, some .blank⟩ ∧
      p.lexeme? (text ++ ['\n']) = some ⟨text ++ ['\n'], some .blank⟩ := by
  unfold lexeme?
  rw [Category.word?_append_lineFeed, Category.numeral?_append_lineFeed, find?_append_lineFeed hp]
  cases Category.word? text with
  | some found => exact .inl rfl
  | none =>
    cases Category.numeral? text with
    | some found => exact .inl rfl
    | none =>
      obtain heq | ⟨htext, heq⟩ := Category.blank?_append_lineFeed h
      · rw [heq]
        exact .inl rfl
      · rw [htext, heq]
        exact .inr ⟨rfl, rfl⟩

end Pattern

/-- Nothing comes of a line feed at the end of a line. -/
theorem Lexicon.items_append_lineFeed {lexicon : Lexicon} (hp : lexicon.Proper)
    (hline : lexicon.pattern.OnLine) (line : List Char) (start : Position) :
    (lexicon.pattern.piecesOfLine start (line ++ ['\n'])).filterMap lexicon.item? =
      (lexicon.pattern.piecesOfLine start line).filterMap lexicon.item? := by
  have hblank : ∀ start text, lexicon.item? (.ofLexeme ⟨text, some .blank⟩ start) = none :=
    fun _ _ => rfl
  have hwhole : ∀ start text, lexicon.pattern.lexeme? text = some ⟨text, some .blank⟩ →
      (lexicon.pattern.piecesOfLine start text).filterMap lexicon.item? = [] := by
    intro start text h
    let lexeme : Lexeme := ⟨text, some .blank⟩
    have hfound : lexicon.pattern.lexeme? (lexeme.text ++ []) = some lexeme := by
      rw [List.append_nil, h]
    have hpieces : lexicon.pattern.piecesOfLine start (lexeme.text ++ []) = _ :=
      Pattern.piecesOfLine_of_lexeme hp.pattern hfound
    rw [List.append_nil] at hpieces
    rw [hpieces, Pattern.piecesOfLine_nil, List.filterMap_cons, hblank]
    rfl
  induction line using Pattern.line_induction hp.pattern generalizing start with
  | nil =>
    rw [Pattern.piecesOfLine_nil]
    exact hwhole start ['\n'] rfl
  | lexeme lexeme rest h ih =>
    have hne : lexeme.text ++ rest ≠ [] :=
      List.append_ne_nil_of_left_ne_nil (List.length_pos_iff.mp (hp.pattern.length_pos h)) rest
    obtain heq | ⟨htext, heq⟩ := Pattern.lexeme?_append_lineFeed hline hne
    · rw [h, List.append_assoc] at heq
      rw [List.append_assoc, Pattern.piecesOfLine_of_lexeme hp.pattern heq,
        Pattern.piecesOfLine_of_lexeme hp.pattern h, List.filterMap_cons, List.filterMap_cons, ih]
    · rw [hwhole start _ htext, hwhole start _ heq]
  | malformed c rest h ih =>
    obtain heq | ⟨htext, -⟩ := Pattern.lexeme?_append_lineFeed hline (List.cons_ne_nil c rest)
    · rw [h, List.cons_append] at heq
      rw [List.cons_append, Pattern.piecesOfLine_of_none heq, Pattern.piecesOfLine_of_none h,
        List.filterMap_cons, List.filterMap_cons, ih]
    · cases h.symm.trans htext

end LineFeed

/-! ## The pieces of two texts -/

namespace Lexicon

variable {lexicon : Lexicon}

/-- Nothing comes of a line feed at the end of some lines. -/
theorem items_lines_append_lineFeed (hp : lexicon.Proper) (hline : lexicon.pattern.OnLine)
    (text : List Char) (number : Nat) :
    (lexicon.pattern.piecesOfLines number
        (Text.splitAfter (· == '\n') (text ++ ['\n']))).filterMap lexicon.item? =
      (lexicon.pattern.piecesOfLines number
        (Text.splitAfter (· == '\n') text)).filterMap lexicon.item? := by
  have hparts := Text.parts_splitAfter (· == '\n') text
  rw [← Text.flatten_splitAfter (· == '\n') text, hparts.splitAfter_flatten]
  generalize Text.splitAfter (· == '\n') text = parts at hparts
  induction hparts generalizing number with
  | nil =>
    show List.filterMap _ (lexicon.pattern.piecesOfLine ⟨number, 1⟩ ([] ++ ['\n']) ++ []) = []
    rw [List.append_nil, items_append_lineFeed hp hline, Pattern.piecesOfLine_nil]
    rfl
  | @last part ne hpart =>
    rw [List.flatten_singleton, Text.splitAfter_append_cons hpart (x := '\n') rfl]
    simp only [Text.splitAfter_nil, Pattern.piecesOfLines, List.append_nil]
    exact items_append_lineFeed hp hline part _
  | @cons body c parts hbody hc _ ih =>
    rw [List.flatten_cons, List.append_assoc, List.append_assoc, List.singleton_append,
      Text.splitAfter_append_cons hbody hc]
    simp only [Pattern.piecesOfLines, List.filterMap_append, ih]

/-- What comes of the pieces of two texts with a line break between them. -/
theorem items_pieces_append (hp : lexicon.Proper) (hline : lexicon.pattern.OnLine)
    (text more : List Char) :
    (lexicon.pattern.pieces (text ++ '\n' :: more)).filterMap lexicon.item? =
      (lexicon.pattern.pieces text).filterMap lexicon.item? ++
        ((lexicon.pattern.pieces more).filterMap lexicon.item?).map
          (TokenStream.itemDown (1 + text.count '\n')) := by
  have hwhole : Text.Whole (· == '\n') (text ++ ['\n']) := Text.whole_concat text rfl
  have hlength : (Text.splitAfter (· == '\n') (text ++ ['\n'])).length = 1 + text.count '\n' := by
    rw [hwhole.length_splitAfter, Nat.add_comm]
    simp [List.count]
  have hsplit : Text.splitAfter (· == '\n') (text ++ '\n' :: more) =
      Text.splitAfter (· == '\n') (text ++ ['\n']) ++ Text.splitAfter (· == '\n') more := by
    rw [← Text.splitAfter_append_of_whole hwhole, List.append_assoc, List.singleton_append]
  have hdown : lexicon.item? ∘ Piece.down (1 + text.count '\n') = fun piece =>
      (lexicon.item? piece).map (TokenStream.itemDown (1 + text.count '\n')) := by
    funext piece
    exact item?_down lexicon _ piece
  rw [Pattern.pieces, hsplit, Pattern.piecesOfLines_append, List.filterMap_append,
    items_lines_append_lineFeed hp hline, hlength, Pattern.piecesOfLines_down hp.pattern,
    List.filterMap_map, hdown, List.map_filterMap]
  rfl

end Lexicon

/-! ## Two texts -/

/-- The symbols of the language have no line feed in them. -/
theorem Lexicon.onLine_standard : Lexicon.standard.pattern.OnLine := by
  have hall : ∀ symbol ∈ standardSymbols.map Prod.fst, '\n' ∉ symbol.toList := by decide
  intro symbol hsymbol
  exact hall symbol (List.mem_mergeSort.mp hsymbol)

/-- Everything that an iteration over the bytes of a text gives. -/
def TokenStream.itemsOfBytes (text : String) : List (Except (Stop TokenError) Token) :=
  (ofSource Lexicon.standard (Source.ofBytes text.toUTF8.data.toList none)).items

/-- What comes of two texts with a line break between them is what comes of the first, and then what
comes of the second as many lines further down as the first one has. The end of the text apart: it
stands where the last lexeme ends. -/
theorem items_lineBreak (text more : String) :
    ∃ items later stop stopLater stopAll,
      TokenStream.itemsOfBytes text = items ++ [.ok (Token.endOfText stop)] ∧
      TokenStream.itemsOfBytes more = later ++ [.ok (Token.endOfText stopLater)] ∧
      TokenStream.itemsOfBytes (text ++ "\n" ++ more) =
        items ++ later.map (TokenStream.itemDown (1 + text.toList.count '\n')) ++
          [.ok (Token.endOfText stopAll)] := by
  have hproper : Lexicon.standard.Proper := show "" ∉ _ by decide
  have hitems : ∀ text, TokenStream.itemsOfBytes text =
      Lexicon.standard.itemsOf Position.origin (Lexicon.standard.pattern.pieces text.toList) := by
    intro text
    rw [TokenStream.itemsOfBytes, Source.ofBytes_toUTF8, TokenStream.items_ofText hproper]
  have htext : (text ++ "\n" ++ more).toList = text.toList ++ '\n' :: more.toList := by
    simp
  have hall := hitems (text ++ "\n" ++ more)
  rw [htext, Lexicon.itemsOf,
    Lexicon.items_pieces_append hproper Lexicon.onLine_standard] at hall
  exact ⟨_, _, _, _, _, hitems text, hitems more, hall⟩

/-- For example two texts with a malformed character each, the first of which ends in a comment. -/
example : TokenStream.itemsOfBytes "x $ // é\n = @" =
    [.ok ⟨.identifier, "x", ⟨⟨1, 1⟩, ⟨1, 2⟩⟩, none⟩,
      .error (.error (.lexeme (.malformed "$" ⟨1, 3⟩))),
      .ok ⟨.assign, "=", ⟨⟨2, 2⟩, ⟨2, 3⟩⟩, none⟩,
      .error (.error (.lexeme (.malformed "@" ⟨2, 4⟩))),
      .ok (Token.endOfText ⟨2, 4⟩)] := by
  cbv

end ListScript
