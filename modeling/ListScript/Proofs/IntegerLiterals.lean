import ListScript.Proofs.BrokenSource
import ListScript.Proofs.MalformedCharacters

/-!
# Integer literals

A numeral of any length denotes its number: there is a token with just this number if it is no more
than the greatest integer, and one report at the place of the numeral if it is. What else there is in a
source comes as it would with blanks in place of the numeral.

* `Numeral.Denotes` : the decimal and binary numerals, and the numbers that they denote;
* `Lexicon.Alike` : pieces of which the same comes, whatever follows;
* `Lexicon.alike_blankedLine`, `Lexicon.alike_blankedLines`, `Lexicon.itemsOf_blanked` : what comes of a
  line, of lines and of a text with blanks in place of one lexeme;
* `Source.Remains` : the text that can be read, and the bytes that are left of a source after it
  (`Source.exists_remains`);
* `Lexicon.items_without` : what comes of a source with blanks in place of one lexeme;
* `literal_denotes` : all of it.
-/

namespace ListScript

/-! ## Numerals -/

namespace Numeral

/-- The numerals, and the numbers that they denote. -/
inductive Denotes : List Char → Nat → Prop
  /-- Only zero has a zero in front. -/
  | decimal {digits : List Char} : digits ≠ [] → (∀ c ∈ digits, isDigit c = true) →
    (digits.head? = some '0' → digits = ['0']) → Denotes digits (Nat.ofDigitChars 10 digits 0)
  /-- There may be any number of zeros in front. -/
  | binary {b : Char} {bits : List Char} : b = 'b' ∨ b = 'B' → bits ≠ [] →
    (∀ c ∈ bits, isBit c = true) → Denotes ('0' :: b :: bits) (Nat.ofDigitChars 2 bits 0)

namespace Denotes

variable {text : List Char} {n : Nat}

theorem denoted?_eq (h : Denotes text n) : denoted? text = some n := by
  cases h with
  | decimal hne hdigits _ => exact denoted?_of_digits hne hdigits
  | binary hb hne hbits => exact denoted?_binary hb hne hbits

theorem lineFeed_not_mem (h : Denotes text n) : '\n' ∉ text := by
  cases h with
  | decimal _ hdigits _ => exact lineFeed_not_mem_digits hdigits
  | @binary b bits hb _ hbits =>
    have hnot : '\n' ∉ bits := fun hmem => absurd (hbits _ hmem) (by decide)
    rcases hb with rfl | rfl
    · simpa using hnot
    · simpa using hnot

/-- A numeral alone is one lexeme. -/
theorem lexeme?_eq (h : Denotes text n) (p : Pattern) :
    p.lexeme? text = some ⟨text, some .numeral⟩ := by
  have hnil : Text.Apart isWordChar [] := Text.Apart.nil_iff.mpr trivial
  have hboth : Category.numeral? text = some text ∧ Category.word? text = none := by
    cases h with
    | decimal hne hdigits hzero =>
      obtain ⟨c, cs, rfl⟩ := List.exists_cons_of_ne_nil hne
      have hnumeral := numeral?_decimal hne hdigits hzero hnil
      rw [List.append_nil] at hnumeral
      exact ⟨hnumeral,
        Pattern.word?_of_not_letter (Pattern.isLetter_of_isDigit (hdigits c List.mem_cons_self))⟩
    | binary hb hne hbits =>
      have hnumeral := numeral?_binary hb hne hbits hnil
      rw [List.append_nil] at hnumeral
      exact ⟨hnumeral, Pattern.word?_of_not_letter (by decide)⟩
  rw [Pattern.lexeme?, hboth.2, hboth.1]

/-- What comes of a numeral: its token, or the report that it is out of range. -/
theorem item?_eq {text : String} (h : Denotes text.toList n) (lexicon : Lexicon) (span : Span) :
    lexicon.item? (.lexeme text (some .numeral) span) = some (if n < limit
      then .ok ⟨.numeral, text, span, some (.int (Int64.ofNat n))⟩
      else .error (.error (.outOfRange text span.start))) := by
  show some (Lexicon.numeralToken text span) = _
  rw [Lexicon.numeralToken, h.denoted?_eq]

/-- A numeral alone is one piece. -/
theorem pieces_eq (h : Denotes text n) {p : Pattern} (hp : p.Proper) : p.pieces text =
    [.lexeme (String.ofList text) (some .numeral) ⟨⟨1, 1⟩, ⟨1, 1 + text.length⟩⟩] := by
  let lexeme : Lexeme := ⟨text, some .numeral⟩
  have hfound : p.lexeme? (lexeme.text ++ []) = some lexeme := by
    rw [List.append_nil]
    exact h.lexeme?_eq p
  have hfeed : ∀ c ∈ text, (c == '\n') = false := by
    intro c hc
    rw [beq_eq_false_iff_ne]
    rintro rfl
    exact h.lineFeed_not_mem hc
  have hsplit : Text.splitAfter (· == '\n') text = [lexeme.text ++ []] := by
    have hne : text ≠ [] := List.ne_nil_of_length_pos (hp.length_pos (h.lexeme?_eq p))
    simpa using Text.splitAfter_append hne hfeed []
  rw [Pattern.pieces, hsplit, Pattern.piecesOfLines, Pattern.piecesOfLine_of_lexeme hp hfound,
    Pattern.piecesOfLine_nil]
  rfl

end Denotes

end Numeral

/-! ## Blanks in place of a lexeme -/

/-- A run of blanks. -/
def Piece.blanks (n : Nat) (span : Span) : Piece :=
  .lexeme (String.ofList (List.replicate n ' ')) (some .blank) span

namespace Lexicon

variable {lexicon : Lexicon} {xs ys zs : List Piece}

/-- The same comes of the pieces, whatever follows. -/
def Alike (lexicon : Lexicon) (xs ys : List Piece) : Prop :=
  ∀ stop more, lexicon.itemsOf stop (xs ++ more) = lexicon.itemsOf stop (ys ++ more)

theorem itemsOf_cons_eq (lexicon : Lexicon) (stop : Position) (x : Piece) (xs : List Piece) :
    lexicon.itemsOf stop (x :: xs) =
      (lexicon.item? x).toList ++ lexicon.itemsOf (lastStop stop [x]) xs := by
  have hstop : lastStop stop (x :: xs) = lastStop (lastStop stop [x]) xs := by cases x <;> rfl
  rw [itemsOf, itemsOf, List.filterMap_cons, hstop]
  cases lexicon.item? x <;> rfl

theorem itemsOf_blank (lexicon : Lexicon) (stop : Position) (text : String) (span : Span)
    (xs : List Piece) :
    lexicon.itemsOf stop (.lexeme text (some .blank) span :: xs) = lexicon.itemsOf span.stop xs :=
  itemsOf_cons_eq ..

/-- What comes of some pieces, and then of others. -/
theorem itemsOf_append_cons {stop : Position} {text : String} {category : Option Category}
    {span : Span} (earlier later : List Piece) :
    lexicon.itemsOf stop (earlier ++ .lexeme text category span :: later) =
      earlier.filterMap lexicon.item? ++ ((lexicon.item? (.lexeme text category span)).toList ++
        lexicon.itemsOf span.stop later) := by
  induction earlier generalizing stop with
  | nil => exact itemsOf_cons_eq ..
  | cons x earlier ih =>
    rw [List.cons_append, itemsOf_cons_eq, ih, List.filterMap_cons]
    cases lexicon.item? x <;> rfl

namespace Alike

theorem trans (h : lexicon.Alike xs ys) (h' : lexicon.Alike ys zs) : lexicon.Alike xs zs :=
  fun stop more => (h stop more).trans (h' stop more)

theorem cons (x : Piece) (h : lexicon.Alike xs ys) : lexicon.Alike (x :: xs) (x :: ys) := by
  intro stop more
  rw [List.cons_append, List.cons_append, itemsOf_cons_eq, itemsOf_cons_eq, h]

theorem append_left (zs : List Piece) (h : lexicon.Alike xs ys) :
    lexicon.Alike (zs ++ xs) (zs ++ ys) := by
  induction zs with
  | nil => exact h
  | cons z zs ih => exact ih.cons z

theorem append_right (h : lexicon.Alike xs ys) (zs : List Piece) :
    lexicon.Alike (xs ++ zs) (ys ++ zs) := by
  intro stop more
  rw [List.append_assoc, List.append_assoc, h]

end Alike

variable {start : Position} {text : String} {category : Option Category} {span : Span}
  {earlier later : List Piece}

/-- Blanks in front of a line are as good as a run of blanks by itself. -/
theorem alike_blanks (hp : lexicon.pattern.Proper) {blanks : List Char} (hne : blanks ≠ [])
    (h : ∀ c ∈ blanks, Text.isSpace c = true) (text : String) (rest : List Char) : lexicon.Alike
      (lexicon.pattern.piecesOfLine start (blanks ++ rest))
      (.lexeme text (some .blank) ⟨start, start.right blanks.length⟩ ::
        lexicon.pattern.piecesOfLine (start.right blanks.length) rest) := by
  obtain ⟨c, cs, rfl⟩ := List.exists_cons_of_ne_nil hne
  obtain ⟨hc, hcs⟩ := List.forall_mem_cons.mp h
  intro stop more
  rw [List.cons_append, Pattern.piecesOfLine_blank hp hc, List.takeWhile_append_of_pos hcs,
    List.dropWhile_append_of_pos hcs, Piece.ofLexeme]
  simp only [List.cons_append, itemsOf_blank]
  cases rest with
  | nil => rw [List.takeWhile_nil, List.append_nil]; rfl
  | cons d rest =>
    by_cases hd : Text.isSpace d = true
    · have hplace : (start.right (c :: cs).length).right ((rest.takeWhile Text.isSpace).length + 1) =
          start.right ((cs ++ d :: rest.takeWhile Text.isSpace).length + 1) := by
        simp only [Position.right, List.length_cons, List.length_append]
        congr 1
        omega
      -- the blanks of the rest go on with those in front
      rw [Pattern.piecesOfLine_blank hp hd, List.takeWhile_cons_of_pos hd,
        List.dropWhile_cons_of_pos hd, Piece.ofLexeme, List.cons_append, itemsOf_blank, hplace]
      exact congrArg (lexicon.itemsOf · _) hplace.symm
    · rw [List.takeWhile_cons_of_neg hd, List.dropWhile_cons_of_neg hd, List.append_nil]
      rfl

/-- Blanks may stand for the characters of a line. -/
theorem blanked_replicate {text : List Char} (h : '\n' ∉ text) :
    List.Forall₂ Blanked text (List.replicate text.length ' ') := by
  induction text with
  | nil => exact .nil
  | cons c text ih =>
    rw [List.mem_cons, not_or] at h
    exact .cons (.inr ⟨rfl, Ne.symm h.1⟩) (ih h.2)

/-- So they may for a lexeme between others. -/
theorem blanked_lexeme (h : '\n' ∉ text.toList) (before rest : List Char) :
    List.Forall₂ Blanked (before ++ (text.toList ++ rest))
      (before ++ (List.replicate text.toList.length ' ' ++ rest)) :=
  List.rel_append (Blanked.list_refl _)
    (List.rel_append (blanked_replicate h) (Blanked.list_refl _))

theorem chars_append (xs ys : List Piece) : Piece.chars (xs ++ ys) = Piece.chars xs ++ Piece.chars ys :=
  List.flatMap_append

theorem chars_lexeme (earlier later : List Piece) :
    Piece.chars (earlier ++ .lexeme text category span :: later) =
      Piece.chars earlier ++ (text.toList ++ Piece.chars later) := by
  rw [chars_append]
  rfl

/-- Of a line with blanks in place of one lexeme comes what comes of the other pieces. -/
theorem alike_blankedLine (hp : lexicon.pattern.Proper) (hspace : lexicon.pattern.Spaceless)
    {line : List Char} (hfeed : '\n' ∉ text.toList)
    (h : lexicon.pattern.piecesOfLine start line = earlier ++ .lexeme text category span :: later) :
    lexicon.Alike
      (lexicon.pattern.piecesOfLine start (Piece.chars earlier ++
        (List.replicate text.toList.length ' ' ++ Piece.chars later)))
      (earlier ++ .blanks text.toList.length span :: later) := by
  induction line using Pattern.line_induction hp generalizing start earlier with
  | nil =>
    rw [Pattern.piecesOfLine_nil] at h
    exact absurd h.symm (by simp)
  | lexeme lexeme rest hfound ih =>
    rw [Pattern.piecesOfLine_of_lexeme hp hfound] at h
    cases earlier with
    | nil =>
      obtain ⟨hpiece, rfl⟩ := List.cons.inj h
      cases hpiece
      have hne : List.replicate lexeme.text.length ' ' ≠ [] := by
        rw [Ne, List.replicate_eq_nil_iff]
        exact Nat.ne_of_gt (hp.length_pos hfound)
      have hblanks : ∀ c ∈ List.replicate lexeme.text.length ' ', Text.isSpace c = true := by
        intro c hc
        rw [List.eq_of_mem_replicate hc]
        decide
      have halike : lexicon.Alike (lexicon.pattern.piecesOfLine start
          (List.replicate lexeme.text.length ' ' ++ rest)) _ :=
        alike_blanks hp hne hblanks (String.ofList (List.replicate lexeme.text.length ' ')) rest
      rw [List.length_replicate] at halike
      rw [String.toList_ofList, Pattern.chars_piecesOfLine hp]
      exact halike
    | cons x earlier =>
      rw [List.cons_append] at h
      obtain ⟨rfl, hafter⟩ := List.cons.inj h
      have hrest := Pattern.chars_piecesOfLine hp rest (start.right lexeme.text.length)
      rw [hafter, chars_lexeme] at hrest
      have hblanked := blanked_lexeme hfeed (Piece.chars earlier) (Piece.chars later)
      rw [hrest] at hblanked
      have hchars : Piece.chars (.ofLexeme lexeme start :: earlier) =
          lexeme.text ++ Piece.chars earlier := by
        rw [Piece.chars, List.flatMap_cons]
        exact congrArg (· ++ _) String.toList_ofList
      rw [hchars, List.append_assoc, List.cons_append]
      obtain ⟨hcategory, hrun⟩ | hfound' := Pattern.blanks_or_found hp hspace hblanked hfound
      · have hne := List.ne_nil_of_length_pos (hp.length_pos hfound)
        refine (alike_blanks hp hne hrun (String.ofList lexeme.text) _).trans ?_
        rw [Piece.ofLexeme, hcategory]
        exact (ih hafter).cons _
      · rw [Pattern.piecesOfLine_of_lexeme hp hfound']
        exact (ih hafter).cons _
  | malformed c rest hnone ih =>
    rw [Pattern.piecesOfLine_of_none hnone] at h
    cases earlier with
    | nil => cases (List.cons.inj h).1
    | cons x earlier =>
      rw [List.cons_append] at h
      obtain ⟨rfl, hafter⟩ := List.cons.inj h
      have hrest := Pattern.chars_piecesOfLine hp rest (start.right 1)
      rw [hafter, chars_lexeme] at hrest
      have hblanked := blanked_lexeme hfeed (Piece.chars earlier) (Piece.chars later)
      rw [hrest] at hblanked
      have hchars : Piece.chars (.ofChar c start :: earlier) = c :: Piece.chars earlier := by
        rw [Piece.chars, List.flatMap_cons]
        exact congrArg (· ++ _) (String.toList_singleton c)
      have hnone' := Pattern.none_of_blanked hspace hblanked hnone
      rw [hchars, List.cons_append, List.cons_append, Pattern.piecesOfLine_of_none hnone']
      exact (ih hafter).cons _

/-- So it does of some lines. -/
theorem alike_blankedLines (hp : lexicon.pattern.Proper) (hspace : lexicon.pattern.Spaceless)
    {number : Nat} {lines : List (List Char)} (hfeed : '\n' ∉ text.toList)
    (h : lexicon.pattern.piecesOfLines number lines =
      earlier ++ .lexeme text category span :: later) :
    ∃ lines', List.Forall₂ (List.Forall₂ Blanked) lines lines' ∧
      lines'.flatten = Piece.chars earlier ++
        (List.replicate text.toList.length ' ' ++ Piece.chars later) ∧
      lexicon.Alike (lexicon.pattern.piecesOfLines number lines')
        (earlier ++ .blanks text.toList.length span :: later) := by
  induction lines generalizing number earlier with
  | nil => exact absurd h.symm (by simp [Pattern.piecesOfLines])
  | cons line lines ih =>
    have hline := Pattern.chars_piecesOfLine hp line ⟨number, 1⟩
    rw [Pattern.piecesOfLines, List.append_eq_append_iff] at h
    have hfurther (more : List Piece)
        (hmore : lexicon.pattern.piecesOfLines (number + 1) lines =
          more ++ .lexeme text category span :: later) :
        ∃ lines', List.Forall₂ (List.Forall₂ Blanked) (line :: lines) lines' ∧
          lines'.flatten = Piece.chars (lexicon.pattern.piecesOfLine ⟨number, 1⟩ line ++ more) ++
            (List.replicate text.toList.length ' ' ++ Piece.chars later) ∧
          lexicon.Alike (lexicon.pattern.piecesOfLines number lines')
            (lexicon.pattern.piecesOfLine ⟨number, 1⟩ line ++ more ++
              .blanks text.toList.length span :: later) := by
      obtain ⟨lines', hblanked, hflatten, halike⟩ := ih hmore
      refine ⟨line :: lines', .cons (Blanked.list_refl _) hblanked, ?_, ?_⟩
      · rw [List.flatten_cons, hflatten, chars_append, hline, List.append_assoc]
      · rw [Pattern.piecesOfLines, List.append_assoc]
        exact halike.append_left _
    rcases h with ⟨more, rfl, hmore⟩ | ⟨more, hhere, hmore⟩
    · exact hfurther more hmore
    cases more with
    | nil =>
      rw [List.append_nil] at hhere
      have hnext := hfurther [] hmore.symm
      rw [List.append_nil, hhere] at hnext
      exact hnext
    | cons x more =>
      rw [List.cons_append] at hmore
      obtain ⟨rfl, rfl⟩ := List.cons.inj hmore
      have hline' := hline
      rw [hhere, chars_lexeme] at hline'
      have hblanked := blanked_lexeme hfeed (Piece.chars earlier) (Piece.chars more)
      rw [hline'] at hblanked
      refine ⟨_ :: lines, .cons hblanked (List.forall₂_same.mpr fun _ _ => Blanked.list_refl _), ?_, ?_⟩
      · rw [List.flatten_cons, chars_append, Pattern.chars_piecesOfLines hp, List.append_assoc,
          List.append_assoc]
      · have halike := (alike_blankedLine hp hspace hfeed hhere).append_right
          (lexicon.pattern.piecesOfLines (number + 1) lines)
        rw [List.append_assoc earlier] at halike
        exact halike

/-- So it does of a text. -/
theorem itemsOf_blanked (hp : lexicon.pattern.Proper) (hspace : lexicon.pattern.Spaceless)
    {whole : List Char} (hfeed : '\n' ∉ text.toList)
    (h : lexicon.pattern.pieces whole = earlier ++ .lexeme text category span :: later)
    (stop : Position) :
    lexicon.itemsOf stop (lexicon.pattern.pieces (Piece.chars earlier ++
        (List.replicate text.toList.length ' ' ++ Piece.chars later))) =
      earlier.filterMap lexicon.item? ++ lexicon.itemsOf span.stop later := by
  obtain ⟨lines', hblanked, hflatten, halike⟩ := alike_blankedLines hp hspace hfeed h
  have hparts := (Text.parts_splitAfter (· == '\n') whole).of_forall₂
    (fun _ _ h => h.lineFeed_eq) hblanked
  have hall := halike stop []
  rw [List.append_nil, List.append_nil] at hall
  rw [Pattern.pieces, ← hflatten, hparts.splitAfter_flatten, hall]
  exact itemsOf_append_cons earlier later

end Lexicon

/-! ## Sources -/

namespace Source

/-- The text is all that can be read of a source that goes on with the bytes: there are none, or their
first line cannot be read. -/
inductive Remains (text : List Char) : List UInt8 → Option String → Prop
  | whole : Remains text [] none
  | broken {tail : List UInt8} {fault : Option String} {cause : String} :
    (∀ c, text.getLast? = some c → c = '\n') → FailsAt fault tail cause → Remains text tail fault

theorem encode_flatten (lines : List (List Char)) :
    encode lines.flatten = (lines.map encode).flatten := by
  induction lines with
  | nil => rfl
  | cons line lines ih =>
    rw [List.flatten_cons, encode_append, ih, List.map_cons, List.flatten_cons]

/-- Some text is all that can be read of a source. -/
theorem exists_remains (bytes : List UInt8) (fault : Option String) :
    ∃ text tail, bytes = encode text ++ tail ∧ Remains text tail fault := by
  by_cases h : fault.isSome ∨ ∃ line ∈ Text.splitAfter isLineFeed bytes,
      ∀ text : String, text.toUTF8.data.toList ≠ line
  · obtain ⟨good, rest, cause, hbreak⟩ := exists_breaksOff h
    exact ⟨good.toList, rest, by rw [encode_toList]; exact hbreak.bytes_eq,
      .broken hbreak.whole hbreak.fails⟩
  · push Not at h
    obtain ⟨hfault, hlines⟩ := h
    have hfault : fault = none := by simpa using hfault
    subst hfault
    have htexts : Text.splitAfter isLineFeed bytes ∈ Set.range (List.map encode) := by
      rw [Set.range_list_map]
      intro line hline
      obtain ⟨text, htext⟩ := hlines line hline
      exact ⟨text.toList, by rw [encode_toList, htext]⟩
    obtain ⟨lines, hlines⟩ := htexts
    refine ⟨lines.flatten, [], ?_, .whole⟩
    rw [List.append_nil, encode_flatten, hlines, Text.flatten_splitAfter]

end Source

namespace Lexicon

variable {whole before rest : List Char} {text : String} {category : Option Category} {span : Span}
  {earlier later : List Piece} {tail : List UInt8} {fault : Option String}

theorem count_lineFeed_blanked {text text' : List Char} (h : List.Forall₂ Blanked text text') :
    text'.count '\n' = text.count '\n' := by
  induction h with
  | nil => rfl
  | cons hc _ ih => rw [List.count_cons, List.count_cons, ih, hc.lineFeed_eq]

/-- Whole lines stay whole lines. -/
theorem whole_of_blanked {text text' : List Char} (h : List.Forall₂ Blanked text text')
    (hwhole : ∀ c, text.getLast? = some c → c = '\n') : ∀ c, text'.getLast? = some c → c = '\n' := by
  intro c' hc'
  rw [List.getLast?_eq_head?_reverse] at hc'
  obtain ⟨rest', hrest'⟩ := List.head?_eq_some_iff.mp hc'
  have hreverse := List.forall₂_reverse_iff.mpr h
  rw [hrest'] at hreverse
  obtain ⟨c, rest, hc, -, hrest⟩ := List.forall₂_cons_right_iff.mp hreverse
  have hlast : c = '\n' := by
    apply hwhole
    rw [List.getLast?_eq_head?_reverse, hrest]
    rfl
  subst hlast
  exact beq_iff_eq.mp hc.lineFeed_eq

/-- What comes of some bytes. -/
def itemsOfSource (lexicon : Lexicon) (bytes : List UInt8) (fault : Option String) :
    List (Except (Stop TokenError) Token) :=
  (TokenStream.ofSource lexicon (Source.ofBytes bytes fault)).items

theorem itemsOfSource_encode (text : List Char) : standard.itemsOfSource (Source.encode text) none =
    standard.itemsOf Position.origin (standard.pattern.pieces text) := by
  have hitems := TokenStream.items_ofText Proper.standard (String.ofList text)
  rw [String.toList_ofList] at hitems
  rw [itemsOfSource, Source.ofBytes_encode, ← hitems, Source.ofText, String.toList_ofList]

theorem itemsOfSource_broken (hwhole : ∀ c, whole.getLast? = some c → c = '\n') {cause : String}
    (hfails : Source.FailsAt fault tail cause) {items : List (Except (Stop TokenError) Token)}
    {stop : Position} (hitems : standard.itemsOf Position.origin (standard.pattern.pieces whole) =
      items ++ [.ok (Token.endOfText stop)]) :
    standard.itemsOfSource (Source.encode whole ++ tail) fault =
      items ++ [.error (TokenStream.unreadable (whole.count '\n') cause)] := by
  have hbreak : Source.BreaksOff (Source.encode whole ++ tail) fault (String.ofList whole) tail
      cause := by
    refine ⟨?_, ?_, hfails⟩
    · rw [← Source.encode_toList, String.toList_ofList]
    · rw [String.toList_ofList]
      exact hwhole
  rw [← String.toList_ofList (l := whole), ← TokenStream.items_ofText Proper.standard] at hitems
  have hall := (hbreak.iterates hitems).1
  rw [String.toList_ofList] at hall
  exact hall

/-- Whatever a source goes on with, blanks in place of a lexeme take away what comes of the lexeme and
nothing else. -/
theorem items_without (h : Source.Remains whole tail fault) (hfeed : '\n' ∉ text.toList)
    (hpieces : standard.pattern.pieces whole = earlier ++ .lexeme text category span :: later) :
    ∃ items, standard.itemsOfSource (Source.encode whole ++ tail) fault =
        earlier.filterMap standard.item? ++
          ((standard.item? (.lexeme text category span)).toList ++ items) ∧
      standard.itemsOfSource (Source.encode (Piece.chars earlier ++
          (List.replicate text.toList.length ' ' ++ Piece.chars later)) ++ tail) fault =
        earlier.filterMap standard.item? ++ items := by
  have hitems : standard.itemsOf Position.origin (standard.pattern.pieces whole) =
      earlier.filterMap standard.item? ++ ((standard.item? (.lexeme text category span)).toList ++
        standard.itemsOf span.stop later) := by
    rw [hpieces]
    exact itemsOf_append_cons earlier later
  have hblanked := itemsOf_blanked Proper.standard.pattern spaceless_standard hfeed hpieces
    Position.origin
  cases h with
  | whole =>
    refine ⟨standard.itemsOf span.stop later, ?_, ?_⟩
    · rw [List.append_nil, itemsOfSource_encode, hitems]
    · rw [List.append_nil, itemsOfSource_encode, hblanked]
  | @broken _ _ cause hwhole hfails =>
    have hchars := Pattern.chars_pieces Proper.standard.pattern whole
    rw [hpieces, chars_lexeme] at hchars
    have hline := blanked_lexeme hfeed (Piece.chars earlier) (Piece.chars later)
    rw [hchars] at hline
    have hend : standard.itemsOf span.stop later = later.filterMap standard.item? ++
      [.ok (Token.endOfText (lastStop span.stop later))] := rfl
    refine ⟨later.filterMap standard.item? ++
      [.error (TokenStream.unreadable (whole.count '\n') cause)], ?_, ?_⟩
    · rw [hend, ← List.append_assoc, ← List.append_assoc] at hitems
      rw [itemsOfSource_broken hwhole hfails hitems]
      simp only [List.append_assoc]
    · rw [hend, ← List.append_assoc (List.filterMap _ earlier)] at hblanked
      rw [itemsOfSource_broken (whole_of_blanked hline hwhole) hfails hblanked,
        count_lineFeed_blanked hline, List.append_assoc]

end Lexicon

/-- A numeral denotes its number. If it is no more than the greatest integer, the text of the numeral
gives one token with this number and then the end, and else it fails with a report of the numeral. Where
a numeral that is out of range stands in the text of a source, there is one report, after which the
reading goes on: all other tokens and errors are those of the source with blanks in place of the
numeral. Every source has such a text, up to its first line that cannot be read. -/
theorem literal_denotes (text : String) (n : Nat) (h : Numeral.Denotes text.toList n) :
    (n ≤ 2 ^ 63 - 1 → ∃ v : Int64, v.toInt = n ∧ tokenize text = .ok
      [⟨.numeral, text, ⟨⟨1, 1⟩, ⟨1, 1 + text.length⟩⟩, some (.int v)⟩,
        Token.endOfText ⟨1, 1 + text.length⟩]) ∧
    (2 ^ 63 - 1 < n → tokenize text = .error (.error (.outOfRange text ⟨1, 1⟩)) ∧
      ∀ whole tail fault span, Source.Remains whole tail fault →
        .lexeme text (some .numeral) span ∈ Lexicon.standard.pattern.pieces whole →
        ∃ before rest earlier later, whole = before ++ (text.toList ++ rest) ∧
          span.start = Position.after before ∧
          Lexicon.standard.itemsOfSource (Source.encode whole ++ tail) fault =
            earlier ++ .error (.error (.outOfRange text span.start)) :: later ∧
          Lexicon.standard.itemsOfSource (Source.encode (before ++
            (List.replicate text.length ' ' ++ rest)) ++ tail) fault = earlier ++ later ∧
          (TokenError.outOfRange text span.start).isFatal = false) ∧
    ∀ bytes fault, ∃ whole tail, bytes = Source.encode whole ++ tail ∧
      Source.Remains whole tail fault := by
  have hp : Lexicon.standard.pattern.Proper := Lexicon.Proper.standard.pattern
  have hitems : tokenize text = List.mapM id
      [if n < Numeral.limit
        then .ok ⟨.numeral, text, ⟨⟨1, 1⟩, ⟨1, 1 + text.length⟩⟩, some (.int (Int64.ofNat n))⟩
        else .error (.error (.outOfRange text ⟨1, 1⟩)),
      .ok (Token.endOfText ⟨1, 1 + text.length⟩)] := by
    rw [tokenize, TokenStream.items_ofText Lexicon.Proper.standard, h.pieces_eq hp,
      String.ofList_toList, String.length_toList, Lexicon.itemsOf_cons_eq, h.item?_eq]
    rfl
  refine ⟨fun hle => ?_, fun hgt => ?_, Source.exists_remains⟩
  · have hlt : n < Numeral.limit := by
      rw [Numeral.limit]
      omega
    refine ⟨Int64.ofNat n, Int64.toInt_ofNat_of_lt (by omega), ?_⟩
    rw [hitems, if_pos hlt]
    rfl
  · have hge : ¬ n < Numeral.limit := by
      rw [Numeral.limit]
      omega
    refine ⟨by rw [hitems, if_neg hge]; rfl, fun whole tail fault span hremains hmem => ?_⟩
    obtain ⟨earlier, later, hpieces⟩ := List.append_of_mem hmem
    obtain ⟨items, hall, hblanked⟩ := Lexicon.items_without hremains h.lineFeed_not_mem hpieces
    have hplaced := Pattern.placed_pieces hp whole
    have hchars := Pattern.chars_pieces hp whole
    rw [hpieces] at hplaced
    rw [hpieces, Lexicon.chars_lexeme] at hchars
    rw [h.item?_eq, if_neg hge] at hall
    rw [String.length_toList] at hblanked
    exact ⟨Piece.chars earlier, Piece.chars later, _, items, hchars.symm, hplaced.of_mem.1, hall,
      hblanked, rfl⟩

/-- The first numeral that is out of range stands in the only line of a source that can be read. -/
theorem literal_denotes_firstBeyond :
    let text := "9223372036854775808"
    let whole := "print 9223372036854775808 + 1\n".toList
    let span : Span := ⟨⟨1, 7⟩, ⟨1, 26⟩⟩
    Numeral.Denotes text.toList (2 ^ 63) ∧ Source.Remains whole [0xFF] none ∧
      .lexeme text (some .numeral) span ∈ Lexicon.standard.pattern.pieces whole ∧
      tokenize text = .error (.error (.outOfRange text ⟨1, 1⟩)) ∧
      ∃ earlier later, Lexicon.standard.itemsOfSource (Source.encode whole ++ [0xFF]) none =
        earlier ++ .error (.error (.outOfRange text ⟨1, 7⟩)) :: later := by
  intro text whole span
  have h : Numeral.Denotes text.toList (2 ^ 63) := by
    have hdigits : Nat.ofDigitChars 10 text.toList 0 = 2 ^ 63 := by decide
    rw [← hdigits]
    exact .decimal (by decide) (List.all_eq_true.mp (by decide)) (by decide)
  have hremains : Source.Remains whole [0xFF] none := by
    have hlast : whole.getLast? = some '\n' := by decide
    have hbyte : Source.decode [0xFF] = none := by cbv
    exact .broken (fun c hc => Option.some.inj (hc.symm.trans hlast))
      (.last (by decide) (Source.decode_eq_none.mp hbyte))
  have hmem : .lexeme text (some .numeral) span ∈ Lexicon.standard.pattern.pieces whole := by
    have hpieces : (Lexicon.standard.pattern.pieces "print 9223372036854775808 + 1\n".toList)[2]? =
      some (.lexeme "9223372036854775808" (some .numeral) ⟨⟨1, 7⟩, ⟨1, 26⟩⟩) := by cbv
    exact List.mem_of_getElem? hpieces
  obtain ⟨hfail, hsource⟩ := (literal_denotes text (2 ^ 63) h).2.1 (by decide)
  obtain ⟨_, _, earlier, later, _, _, hitems, _⟩ := hsource whole [0xFF] none span hremains hmem
  exact ⟨h, hremains, hmem, hfail, earlier, later, hitems⟩

end ListScript
