import ListScript.Failure.Report
import ListScript.Proofs.NamedPlaces
import ListScript.Proofs.PlacesInText
import ListScript.Proofs.TypeSoundness
import ListScript.Proofs.ViablePrefix
import Mathlib.Data.List.DropRight

/-!
# What stands above the caret

A failure that is about some text of the program carries the text and its place, and its report shows
the line of that place with a caret below it. Above the caret stands the first character of the text,
with one exception: blanks at the end of a line are not shown, and a blank that separates no words is a
malformed character. If nothing but blanks follows one, nothing stands above the caret.

* `Failure.PointsAt` : the failures that are about a text, with the text and its place;
  `Failure.PointsAt.exists_item` : they come from the tokens of the source, whether it is the parser,
  the checker or the run that fails;
* `Text.above` : what stands above a mark; `Text.getElem?_trimRight`, `getElem?_shownText` : columns;
* `shownRow`, `caretRow`, `Failure.drawing` : a report with a caret in any column, and its last two
  lines (`Failure.lines_drawing`);
* `caret_under_text` : all of it for the failures of a run.
-/

namespace ListScript

/-! ## Failures that are about a text -/

/-- The text of the source that a failure is about, and its place. There is none if the failure is
about the end of the source. -/
inductive Failure.PointsAt (source : Source) : Failure → String → Position → Prop
  | malformed {text : String} {position : Position} :
    PointsAt source (.grammar (.token (.lexeme (.malformed text position)))) text position
  | outOfRange {text : String} {position : Position} :
    PointsAt source (.grammar (.token (.outOfRange text position))) text position
  | unexpected {found expected : String} {position : Position} {s : TokenStream} {t : Token}
    (stops : parse (TokenStream.ofSource Lexicon.standard source) =
      .error (.error (.unexpected found expected position)) s)
    (current : s.current = some t) (other : t.kind ≠ .endOfText) :
    PointsAt source (.grammar (.unexpected found expected position)) found position
  | untyped {name : String} {position : Position} :
    PointsAt source (.typing (.undeclared name position)) name position
  | typedBefore {name : String} {position : Position} :
    PointsAt source (.typing (.alreadyDeclared name position)) name position
  | unbound {name : String} {position : Position} :
    PointsAt source (.evaluation (.undeclared name position)) name position
  | boundBefore {name : String} {position : Position} :
    PointsAt source (.evaluation (.alreadyDeclared name position)) name position

/-- An unexpected token is one of the tokens, and the one at hand after the parser has stopped. -/
theorem TokenStream.mem_items_of_unexpected {source : Source} {found expected : String}
    {position : Position} {s : TokenStream} {t : Token}
    (h : parse (ofSource Lexicon.standard source) =
      .error (.error (.unexpected found expected position)) s)
    (current : s.current = some t) : .ok t ∈ (ofSource Lexicon.standard source).items ∧
      found = (if t.kind = .endOfText then "EOF" else t.text) ∧ position = t.span.start := by
  cases hadv : (ofSource Lexicon.standard source).advance with
  | error cause u =>
    rw [parse_of_advance_error hadv] at h
    cases cause <;> cases h
  | ok k u =>
    obtain ⟨first, hfirst, -⟩ := current_of_advance hadv
    rw [parse_of_advance hadv] at h
    have hu := (standard_ofSource source).of_advance hadv
    cases (Parser.ends_body ⟨hu, first, hfirst⟩).of_error h with
    | unexpected reads current' =>
      cases current.symm.trans current'
      obtain ⟨n, -, hitems⟩ := items_of_reads hadv reads current
      refine ⟨?_, rfl, rfl⟩
      rw [hitems]
      exact List.mem_append_right _ List.mem_cons_self

section Items

variable {source : Source} {carried : String} {position : Position}

/-- A name that stands in a program is carried by one of its tokens. -/
theorem Ident.StandsIn.exists_item {d : ProgramPhrase} {ident : Ident}
    (hitems : (TokenStream.ofSource Lexicon.standard source).items = d.tokens.map .ok)
    (h : ident.StandsIn d.body.tokens) : ∃ t : Token,
      .ok t ∈ (TokenStream.ofSource Lexicon.standard source).items ∧
        TokenStream.Carries (.ok t) ident.name ident.position := by
  obtain ⟨t, ht, hkind, hname, hplace⟩ := h
  refine ⟨t, ?_, ?_⟩
  · rw [hitems]
    exact List.mem_map_of_mem (List.mem_append_left _ ht)
  · rw [← hname, ← hplace]
    exact .token (by rw [hkind]; exact Kind.noConfusion)

/-- What a failure of a run is about is carried by an item of the tokens. It is a malformed character
only if the failure says so. -/
theorem Failure.PointsAt.exists_item {σ : Type} [Writer σ] {typecheck : Bool} {sink sink' : σ}
    {failure : Failure} (h : failure.PointsAt source carried position)
    (hrun : Program.run source typecheck sink = .error (.error failure) sink') :
    ∃ item ∈ (TokenStream.ofSource Lexicon.standard source).items,
      TokenStream.Carries item carried position ∧
        (item = .error (.error (.lexeme (.malformed carried position))) →
          failure = .grammar (.token (.lexeme (.malformed carried position)))) := by
  obtain ⟨e, s, hparse, rfl⟩ | ⟨program, s, hparse, hfails⟩ := Program.run_eq_error hrun
  · cases h with
    | malformed =>
      cases haltsAt_of_parse hparse with
      | token items_eq =>
        refine ⟨_, ?_, .malformed, fun _ => rfl⟩
        rw [items_eq]
        exact List.mem_append_right _ List.mem_cons_self
    | outOfRange =>
      cases haltsAt_of_parse hparse with
      | token items_eq =>
        refine ⟨_, ?_, .outOfRange, nofun⟩
        rw [items_eq]
        exact List.mem_append_right _ List.mem_cons_self
    | @unexpected _ _ _ _ t stops current other =>
      obtain ⟨hmem, hfound, rfl⟩ := TokenStream.mem_items_of_unexpected stops current
      rw [if_neg other] at hfound
      subst hfound
      exact ⟨.ok t, hmem, .token other, nofun⟩
  · obtain ⟨d, hitems, rfl⟩ := exists_derivation_of_parse hparse
    obtain ⟨e, types, hcheck, rfl⟩ | ⟨e, m, hexecute, -, rfl⟩ := hfails
    · have hstands : Ident.StandsIn d.body.tokens ⟨carried, position⟩ :=
        SeqPhrase.standsIn_of_check hcheck (by cases h <;> rfl)
      obtain ⟨t, hmem, hcarries⟩ := hstands.exists_item hitems
      exact ⟨.ok t, hmem, hcarries, nofun⟩
    · have hstands : Ident.StandsIn d.body.tokens ⟨carried, position⟩ :=
        SeqPhrase.standsIn_of_execute hexecute (by cases h <;> rfl)
      obtain ⟨t, hmem, hcarries⟩ := hstands.exists_item hitems
      exact ⟨.ok t, hmem, hcarries, nofun⟩

theorem Failure.PointsAt.position? {failure : Failure}
    (h : failure.PointsAt source carried position) : failure.position? = some position := by
  cases h <;> rfl

end Items

/-! ## Columns -/

namespace Text

/-- What stands in the upper line above the first of some marks in the lower one. -/
def above (upper lower : List Char) (mark : Char) : Option Char := upper[lower.idxOf mark]?

/-- A character is left unless nothing but blanks follows. -/
theorem getElem?_trimRight (s : List Char) (i : Nat) :
    (trimRight s)[i]? = if (s.drop i).all isBlank then none else s[i]? := by
  change (s.rdropWhile isBlank)[i]? = _
  -- from the right end, as the blanks go
  induction s using List.reverseRecOn with
  | nil => simp
  | append_singleton s c ih =>
    rw [List.rdropWhile_concat, List.drop_append, List.all_append]
    by_cases hc : isBlank c = true
    · have hlast : ([c].drop (i - s.length)).all isBlank = true :=
        List.all_eq_true.mpr fun d hd => by
          cases List.mem_singleton.mp (List.mem_of_mem_drop hd)
          exact hc
      rw [if_pos hc, hlast, Bool.and_true, ih]
      split
      · rfl
      · next hnot =>
        have hlt : i < s.length := by
          by_contra hge
          rw [List.drop_eq_nil_of_le (Nat.le_of_not_lt hge)] at hnot
          exact hnot rfl
        rw [List.getElem?_append_left hlt]
    · rw [if_neg hc]
      split
      · next hall =>
        rw [Bool.and_eq_true, List.all_eq_true] at hall
        have hlt : s.length < i := by
          by_contra hge
          rw [Nat.sub_eq_zero_of_le (Nat.le_of_not_lt hge)] at hall
          simp [hc] at hall
        rw [List.getElem?_eq_none (by rw [List.length_append, List.length_singleton]; omega)]
      · rfl

/-- What is left does not end with a blank. -/
theorem isBlank_of_getLast?_trimRight {s : List Char} {c : Char}
    (h : (trimRight s).getLast? = some c) : isBlank c = false := by
  change (s.rdropWhile isBlank).getLast? = some c at h
  have hne : s.rdropWhile isBlank ≠ [] := by
    intro hnil
    rw [hnil] at h
    cases h
  rw [List.getLast?_eq_some_getLast hne] at h
  cases h
  simpa using List.rdropWhile_last_not isBlank s hne

end Text

section Columns

variable {row : List Char} {column : Nat} {c : Char}

/-- What is no space stands behind the indentation. -/
theorem indentation_le (hc : row[column]? = some c) (hspace : c ≠ ' ') :
    indentation row ≤ column := by
  by_contra hlt
  have hmem : c ∈ row.takeWhile (· == ' ') := by
    refine List.mem_of_getElem? (i := column) ?_
    rw [List.getElem?_eq_getElem (Nat.lt_of_not_le hlt)]
    rw [List.getElem?_eq_some_iff] at hc
    obtain ⟨hlength, rfl⟩ := hc
    exact congrArg some (List.IsPrefix.getElem (List.takeWhile_prefix _) (Nat.lt_of_not_le hlt))
  exact hspace (by simpa using List.mem_takeWhile_imp hmem)

/-- The character below which the caret is drawn is that of the column, unless it is not shown. -/
theorem getElem?_shownText (hcolumn : 0 < column) (hc : row[column - 1]? = some c)
    (hspace : c ≠ ' ') : (shownText row)[caretColumn row column - 1]? =
      if (row.drop (column - 1)).all Text.isBlank then none else some c := by
  have hle := indentation_le hc hspace
  have hindex : caretColumn row column - 1 = column - 1 - indentation row := by
    rw [caretColumn]
    omega
  have hadd : indentation row + (column - 1 - indentation row) = column - 1 := by omega
  rw [shownText, Text.getElem?_trimRight, hindex, List.drop_drop, List.getElem?_drop, hadd, hc]

end Columns

/-! ## Reports with a caret in any column -/

/-- The line of a report that shows a line of the program. -/
def shownRow (row : List Char) (number : Nat) : List Char :=
  (toString number).toList ++ [' ', '|', ' '] ++ shownText row

/-- The line of a report below it. -/
def caretRow (row : List Char) (position : Position) : List Char :=
  (margin position.line).toList ++ [' '] ++ (caret (caretColumn row position.column)).toList

/-- The report of a failure about a line of a file, with a caret in any column. -/
def Failure.drawing (failure : Failure) (name : String) (row : List Char) (position : Position) :
    String :=
  failure.headline ++ ("-> " ++ name ++ ":" ++ toString position ++ "\n") ++
    (shownLine row position.line ++ caretLine row position)

section Reports

variable {failure : Failure} {file : SourceFile} {row : List Char} {position : Position}

/-- This is the report where such a caret can be drawn. -/
theorem Failure.report_eq_drawing (hposition : failure.position? = some position)
    (hrow : file.line? position.line = some row)
    (hcolumn : caretColumn row position.column ≤ lastCaretColumn) :
    failure.report (some file) = ⟨failure.drawing file.name row position, none⟩ := by
  simp only [report, hposition, Option.bind_some, hrow, excerpt, if_pos hcolumn, Report.after,
    Option.map_some, Option.getD_some, drawing]

namespace Text

theorem dropLineEnd_concat {row : List Char} (h : row.getLast? ≠ some '\r') :
    dropLineEnd (row ++ ['\n']) = row := by
  unfold dropLineEnd
  rw [List.reverse_append, List.reverse_singleton, List.singleton_append]
  split
  · next text heq =>
    refine absurd ?_ h
    rw [← List.reverse_reverse row, (List.cons.inj heq).2]
    simp
  · next text heq => rw [← (List.cons.inj heq).2, List.reverse_reverse]
  · next hnot => exact absurd rfl (hnot row.reverse)

/-- A line that is added to some lines is the last of them. -/
theorem lines_append_row {text row : List Char} (htext : Whole (· == '\n') text)
    (hfeed : '\n' ∉ row) (hreturn : row.getLast? ≠ some '\r') :
    lines (text ++ (row ++ ['\n'])) = lines text ++ [row] := by
  have hrow : ∀ c ∈ row, (c == '\n') = false := fun c hc =>
    beq_eq_false_iff_ne.mpr fun hc' => hfeed (hc' ▸ hc)
  rw [lines, splitAfter_append_of_whole htext, splitAfter_append_cons hrow rfl, List.map_append,
    List.map_cons, dropLineEnd_concat hreturn]
  rfl

end Text

theorem lineFeed_not_mem_shownRow (hrow : '\n' ∉ row) (number : Nat) :
    '\n' ∉ shownRow row number := by
  have hshown : '\n' ∉ shownText row := fun hmem =>
    hrow (List.mem_of_mem_drop ((List.rdropWhile_prefix Text.isBlank _).subset hmem))
  have hdigits : '\n' ∉ (toString number).toList :=
    lineFeed_not_mem_digits fun c hc => Numeral.isDigit_of_mem_toDigits (by simpa using hc)
  simp only [shownRow, List.mem_append, not_or]
  exact ⟨⟨hdigits, by decide⟩, hshown⟩

/-- The blanks at the end of the line are gone, a carriage return among them. -/
theorem getLast?_shownRow_ne (row : List Char) (number : Nat) :
    (shownRow row number).getLast? ≠ some '\r' := by
  intro hreturn
  rw [shownRow, List.getLast?_append, List.getLast?_append] at hreturn
  cases hlast : (shownText row).getLast? with
  | none =>
    rw [hlast] at hreturn
    cases hreturn
  | some c =>
    have hblank := Text.isBlank_of_getLast?_trimRight hlast
    rw [hlast] at hreturn
    cases hreturn
    exact absurd hblank (by decide)

/-- A report ends with the line of the program and the line with the caret. -/
theorem Failure.lines_drawing (failure : Failure) (name : String) (hrow : '\n' ∉ row)
    (position : Position) : ∃ before, Text.lines (failure.drawing name row position).toList =
      before ++ [shownRow row position.line, caretRow row position] := by
  have hcaret : '\n' ∉ caretRow row position := by
    simp [caretRow, margin, caret]
  have hend : (caretRow row position).getLast? ≠ some '\r' := by
    rw [caretRow, caret, String.toList_ofList, ← List.append_assoc, List.getLast?_concat]
    decide
  have htext : (failure.drawing name row position).toList =
      (failure.headline ++ ("-> " ++ name ++ ":" ++ toString position ++ "\n") ++
        margin position.line).toList ++ ['\n'] ++ (shownRow row position.line ++ ['\n']) ++
        (caretRow row position ++ ['\n']) := by
    simp [drawing, shownLine, caretLine, shownRow, caretRow]
  rw [htext, Text.lines_append_row _ hcaret hend, Text.lines_append_row (Text.whole_concat _ rfl)
    (lineFeed_not_mem_shownRow hrow _) (getLast?_shownRow_ne row _), List.append_assoc]
  · exact ⟨_, rfl⟩
  · rw [← List.append_assoc]
    exact Text.whole_concat _ rfl

/-- Above the caret stands the character of its column in the line, unless it is not shown. -/
theorem above_caret {c : Char} (hcolumn : 0 < position.column)
    (hc : row[position.column - 1]? = some c) (hspace : c ≠ ' ') :
    Text.above (shownRow row position.line) (caretRow row position) '^' =
      if (row.drop (position.column - 1)).all Text.isBlank then none else some c := by
  have hbefore : '^' ∉ (margin position.line).toList ++ [' '] ++
      List.replicate (caretColumn row position.column - 1) '-' := by
    simp [margin]
  have hmark : (caretRow row position).idxOf '^' =
      (toString position.line).length + 3 + (caretColumn row position.column - 1) := by
    rw [caretRow, caret, String.toList_ofList, ← List.append_assoc,
      List.idxOf_append_of_notMem hbefore, List.idxOf_cons_self, List.length_append,
      List.length_append, List.length_replicate, margin, String.toList_append, List.length_append,
      String.toList_ofList, List.length_replicate]
    rfl
  have hgap : ((toString position.line).toList ++ [' ', '|', ' ']).length =
      (toString position.line).length + 3 := by
    rw [List.length_append, String.length_toList]
    rfl
  rw [Text.above, hmark, shownRow, List.getElem?_append_right (by omega), hgap,
    Nat.add_sub_cancel_left, getElem?_shownText hcolumn hc hspace]

end Reports

/-! ## The failures of a run -/

/-- A file with the bytes of a text has the lines of the text. -/
theorem SourceFile.line?_toUTF8 (name text : String) (number : Nat) :
    SourceFile.line? ⟨name, some text.toUTF8.data.toList⟩ number =
      Text.line? text.toList number := by
  show (Source.decode text.toUTF8.data.toList).bind (fun chars => Text.line? chars number) = _
  rw [← Source.encode_toList, Source.decode_encode]
  rfl

theorem Text.mem_lines_of_line? {s row : List Char} {number : Nat}
    (h : line? s number = some row) : row ∈ lines s := by
  cases number with
  | zero => cases h
  | succ n => exact List.mem_of_getElem? h

/-- Where a run fails because of some text of a file, the file has a line of the number of its place,
and the text begins in that line at the column of its place. The report shows the line, with a caret
below it, if a caret can be drawn so far to the right. Above the caret stands the first character of
the text. Only a malformed character that is a blank, with nothing but blanks behind it in the line, is
not shown: nothing stands above the caret then. -/
theorem caret_under_text (text name : String) (typecheck : Bool) {σ : Type} [Writer σ]
    {sink sink' : σ} {failure : Failure} {carried : String} {position : Position}
    (hrun : Program.run (Source.ofBytes text.toUTF8.data.toList none) typecheck sink =
      .error (.error failure) sink')
    (hpoints : failure.PointsAt (Source.ofBytes text.toUTF8.data.toList none) carried position) :
    let file : SourceFile := ⟨name, some text.toUTF8.data.toList⟩
    ∃ row c, file.line? position.line = some row ∧ carried.toList.head? = some c ∧
      row[position.column - 1]? = some c ∧
      (caretColumn row position.column ≤ lastCaretColumn →
        failure.report (some file) = ⟨failure.drawing name row position, none⟩) ∧
      (∃ before, Text.lines (failure.drawing name row position).toList =
        before ++ [shownRow row position.line, caretRow row position]) ∧
      if (row.drop (position.column - 1)).all Text.isBlank then
        Text.above (shownRow row position.line) (caretRow row position) '^' = none ∧
          failure = .grammar (.token (.lexeme (.malformed carried position)))
      else Text.above (shownRow row position.line) (caretRow row position) '^' = some c := by
  intro file
  obtain ⟨item, hmem, hcarries, hmalformed⟩ := hpoints.exists_item hrun
  rw [Source.ofBytes_toUTF8] at hmem
  obtain ⟨before, c, more, rest, htext, hcarried, hplace, hspace, hblank⟩ :=
    TokenStream.exists_place hmem hcarries
  have hne : ∀ d, Text.isSpace d = true → c ≠ d := by
    rintro d hd rfl
    exact Bool.false_ne_true (hspace.symm.trans hd)
  obtain ⟨row, hrow, hc⟩ := Text.line?_after before rest (hne '\n' rfl) (hne '\r' rfl)
  rw [← htext, ← hplace] at hrow
  rw [← hplace] at hc
  have hfile : file.line? position.line = some row :=
    (SourceFile.line?_toUTF8 name text _).trans hrow
  have hfeed := Text.lineFeed_not_mem (Text.mem_lines_of_line? hrow)
  have hcolumn : 0 < position.column := by
    rw [hplace]
    exact Nat.lt_of_lt_of_le Nat.zero_lt_one (Nat.le_add_right 1 _)
  have habove := above_caret hcolumn hc (hne ' ' rfl)
  refine ⟨row, c, hfile, by rw [hcarried]; rfl, hc, ?_, failure.lines_drawing name hfeed _, ?_⟩
  · exact Failure.report_eq_drawing hpoints.position? hfile
  · split
    · next hall =>
      -- the text itself begins with a blank then, and only a malformed character does
      refine ⟨habove.trans (if_pos hall), hmalformed (hblank ?_)⟩
      rw [List.all_eq_true] at hall
      refine hall c (List.mem_of_getElem? (i := 0) ?_)
      rw [List.getElem?_drop]
      exact hc
    · next hnot => exact habove.trans (if_neg hnot)

/-- A name that is not declared, in the second line of a file with carriage returns and
indentation. -/
theorem caret_under_text_undeclared :
    let text := "var x = 1;\r\n    print x :: [y]\r\n"
    let source := Source.ofBytes text.toUTF8.data.toList none
    let file : SourceFile := ⟨"prog.txt", some text.toUTF8.data.toList⟩
    let failure : Failure := .typing (.undeclared "y" ⟨2, 17⟩)
    Program.run source true Sink.unlimited = .error (.error failure) Sink.unlimited ∧
      failure.PointsAt source "y" ⟨2, 17⟩ ∧
      ∃ row, file.line? 2 = some row ∧ row[16]? = some 'y' ∧
        failure.report (some file) = ⟨failure.drawing "prog.txt" row ⟨2, 17⟩, none⟩ ∧
        Text.above (shownRow row 2) (caretRow row ⟨2, 17⟩) '^' = some 'y' := by
  have hrun : Program.run (Source.ofText "var x = 1;\r\n    print x :: [y]\r\n") true Sink.unlimited =
      .error (.error (.typing (.undeclared "y" ⟨2, 17⟩))) Sink.unlimited := by cbv
  have hrow : Text.line? "var x = 1;\r\n    print x :: [y]\r\n".toList 2 =
      some "    print x :: [y]".toList := by cbv
  rw [← Source.ofBytes_toUTF8] at hrun
  rw [← SourceFile.line?_toUTF8 "prog.txt"] at hrow
  obtain ⟨row, c, hline, hcarried, hc, hreport, -, habove⟩ :=
    caret_under_text _ "prog.txt" true hrun .untyped
  cases hline.symm.trans hrow
  cases hcarried
  rw [if_neg (by decide)] at habove
  exact ⟨hrun, .untyped, _, hrow, hc, hreport (by decide), habove⟩

/-- The no-break space at the end of this line is the malformed character that the failure is about,
and the line is shown without it. -/
theorem nothing_above_caret_of_blank :
    let text := "print 1\u00a0"
    let source := Source.ofBytes text.toUTF8.data.toList none
    let file : SourceFile := ⟨"prog.txt", some text.toUTF8.data.toList⟩
    let failure : Failure := .grammar (.token (.lexeme (.malformed "\u00a0" ⟨1, 8⟩)))
    Program.run source true Sink.unlimited = .error (.error failure) Sink.unlimited ∧
      failure.PointsAt source "\u00a0" ⟨1, 8⟩ ∧
      failure.report (some file) =
        ⟨"Error: UnrecognisedToken (`\u00a0` is not part of the language)\n-> prog.txt:1:8\n" ++
          "  |\n1 | print 1\n  | -------^\n", none⟩ ∧
      Text.above "1 | print 1".toList "  | -------^".toList '^' = none := by
  have hrun : Program.run (Source.ofText "print 1\u00a0") true Sink.unlimited =
      .error (.error (.grammar (.token (.lexeme (.malformed "\u00a0" ⟨1, 8⟩)))))
        Sink.unlimited := by cbv
  rw [← Source.ofBytes_toUTF8] at hrun
  exact ⟨hrun, .malformed, by cbv, by decide⟩

end ListScript
