import ListScript.Proofs.Blanking
import ListScript.Proofs.ItemsInOrder

/-!
# Malformed characters are passed over

A character that begins no lexeme is reported and passed over, and the text goes on behind it just as
behind a blank. So a text gives what it gives with blanks for its malformed characters, and one report
for each of these in between.

* `Text.placed` : the characters of a text, each at its place; `Text.blanked` : the text with a blank
  at each of some places;
* `Lexicon.MalformedAt` : the places of the malformed characters of a line;
* `TokenStream.PassedOver` : some items but for the reports of the characters at some places;
* `Lexicon.items_blankedLine`, `Lexicon.items_blankedLines` : what comes of a line, and of some
  lines, with blanks for their malformed characters;
* `malformed_passed_over` : what comes of a text.
-/

namespace ListScript

/-! ## Characters at their places -/

namespace Text

/-- The characters of a line from `start` on, each at its place. -/
def placedLine : Position → List Char → List (Position × Char)
  | _, [] => []
  | start, c :: line => (start, c) :: placedLine (start.right 1) line

/-- The characters of some lines, the first of which has the given number, each at its place. -/
def placedLines : Nat → List (List Char) → List (Position × Char)
  | _, [] => []
  | number, line :: lines => placedLine ⟨number, 1⟩ line ++ placedLines (number + 1) lines

/-- The characters of a text, each at its place. -/
def placed (text : List Char) : List (Position × Char) :=
  placedLines 1 (splitAfter (· == '\n') text)

theorem placedLine_append (start : Position) (line more : List Char) :
    placedLine start (line ++ more) =
      placedLine start line ++ placedLine (start.right line.length) more := by
  induction line generalizing start with
  | nil => rfl
  | cons c line ih =>
    have hplace : (start.right 1).right line.length = start.right (line.length + 1) := by
      simp only [Position.right, Nat.add_assoc, Nat.add_comm 1]
    rw [List.cons_append, placedLine, placedLine, ih, List.cons_append, hplace]
    rfl

theorem place_of_mem_placedLine {start : Position} {line : List Char} {entry : Position × Char}
    (h : entry ∈ placedLine start line) : entry.1.line = start.line ∧
      start.column ≤ entry.1.column ∧ entry.1.column < start.column + line.length := by
  induction line generalizing start with
  | nil => cases h
  | cons c line ih =>
    rw [List.length_cons]
    obtain rfl | h := List.mem_cons.mp h
    · exact ⟨rfl, Nat.le_refl _, Nat.lt_add_of_pos_right (Nat.succ_pos _)⟩
    · obtain ⟨hline, hle, hlt⟩ := ih h
      simp only [Position.right] at hline hle hlt
      exact ⟨hline, by omega, by omega⟩

theorem map_snd_placedLine (start : Position) (line : List Char) :
    (placedLine start line).map Prod.snd = line := by
  induction line generalizing start with
  | nil => rfl
  | cons c line ih => rw [placedLine, List.map_cons, ih]

/-- A blank at some places, any other character as it is. -/
def blankAt (places : List Position) (entry : Position × Char) : Char :=
  if entry.1 ∈ places then ' ' else entry.2

/-- A line without any of the places is left as it is. -/
theorem blanked_of_not_mem {places : List Position} {start : Position} {line : List Char}
    (h : ∀ entry ∈ placedLine start line, entry.1 ∉ places) :
    (placedLine start line).map (blankAt places) = line := by
  have hsame : (placedLine start line).map (blankAt places) =
      (placedLine start line).map Prod.snd :=
    List.map_congr_left fun entry hentry => if_neg (h entry hentry)
  rw [hsame, map_snd_placedLine]

/-- The text with a blank at each of the places. -/
def blanked (places : List Position) (text : List Char) : List Char :=
  (placed text).map (blankAt places)

/-- Some lines, the first of which has the given number, with a blank at each of the places. -/
def blankedLines (places : List Position) : Nat → List (List Char) → List (List Char)
  | _, [] => []
  | number, line :: lines =>
    (placedLine ⟨number, 1⟩ line).map (blankAt places) :: blankedLines places (number + 1) lines

theorem flatten_blankedLines (places : List Position) (number : Nat) (lines : List (List Char)) :
    (blankedLines places number lines).flatten =
      (placedLines number lines).map (blankAt places) := by
  induction lines generalizing number with
  | nil => rfl
  | cons line lines ih =>
    rw [blankedLines, List.flatten_cons, ih, placedLines, List.map_append]

section Parts

variable {α : Type} {p : α → Bool} {R : α → α → Prop} {xs ys : List α} {parts parts' : List (List α)}

theorem forall_of_forall₂ (hR : ∀ x y, R x y → p y = p x) (h : List.Forall₂ R xs ys) {b : Bool}
    (hxs : ∀ x ∈ xs, p x = b) : ∀ y ∈ ys, p y = b := by
  induction h with
  | nil => exact nofun
  | @cons x y xs ys hxy _ ih =>
    obtain ⟨hx, hxs⟩ := List.forall_mem_cons.mp hxs
    exact List.forall_mem_cons.mpr ⟨(hR x y hxy).trans hx, ih hxs⟩

/-- A list is cut where one is cut whose elements are as good for a cut. -/
theorem Parts.of_forall₂ (hR : ∀ x y, R x y → p y = p x) (h : Parts p parts)
    (hparts : List.Forall₂ (List.Forall₂ R) parts parts') : Parts p parts' := by
  induction h generalizing parts' with
  | nil =>
    cases hparts
    exact .nil
  | @last part hne hpart =>
    obtain ⟨part', parts', hsame, hnil, rfl⟩ := List.forall₂_cons_left_iff.mp hparts
    cases hnil
    refine .last (fun hnil => hne ?_) (forall_of_forall₂ hR hsame hpart)
    exact List.eq_nil_of_length_eq_zero (by rw [hsame.length_eq, hnil]; rfl)
  | @cons body x parts hbody hx _ ih =>
    obtain ⟨part', parts', hsame, hmore, rfl⟩ := List.forall₂_cons_left_iff.mp hparts
    have hreverse := List.forall₂_reverse_iff.mpr hsame
    rw [List.reverse_concat] at hreverse
    obtain ⟨x', body', hxx', hbodies, heq⟩ := List.forall₂_cons_left_iff.mp hreverse
    rw [List.reverse_eq_cons_iff] at heq
    rw [heq]
    refine .cons (fun y hy => ?_) ((hR x x' hxx').trans hx) (ih hmore)
    refine forall_of_forall₂ hR hbodies (fun z hz => hbody z ?_) y (List.mem_reverse.mp hy)
    exact List.mem_reverse.mp hz

end Parts

end Text

/-! ## Blanks for the malformed characters -/

/-- From its start on, the line has its malformed characters at the places. -/
def Lexicon.MalformedAt (lexicon : Lexicon) (places : List Position) (start : Position)
    (line : List Char) : Prop :=
  ∀ p : Position, p.line = start.line → start.column ≤ p.column →
    (p ∈ places ↔ p ∈ (lexicon.itemsOfLine start line).filterMap TokenStream.malformedAt?)

namespace Lexicon

variable {lexicon : Lexicon} {places : List Position} {start : Position}

theorem malformedAt?_of_lexeme (hp : lexicon.pattern.Proper) {lexeme : Lexeme} {rest : List Char}
    (h : lexicon.pattern.lexeme? (lexeme.text ++ rest) = some lexeme) :
    (lexicon.itemsOfLine start (lexeme.text ++ rest)).filterMap TokenStream.malformedAt? =
      (lexicon.itemsOfLine (start.right lexeme.text.length) rest).filterMap
        TokenStream.malformedAt? := by
  rw [itemsOfLine_of_lexeme hp h, List.filterMap_append]
  cases hitem : lexicon.item? (.ofLexeme lexeme start) with
  | none => rfl
  | some item =>
    rw [Option.toList_some, List.filterMap_cons_none (place_of_item? h hitem).1]
    rfl

/-- The places of the malformed characters of a line are on the line. -/
theorem place_of_mem_malformedAt? (hp : lexicon.pattern.Proper) {line : List Char} {p : Position}
    (h : p ∈ (lexicon.itemsOfLine start line).filterMap TokenStream.malformedAt?) :
    p.line = start.line ∧ start.column ≤ p.column := by
  obtain ⟨item, hitem, hat⟩ := List.mem_filterMap.mp h
  obtain ⟨q, hplace, hline⟩ := place_of_mem_itemsOfLine hp hitem
  rw [TokenStream.placeOf?_of_malformedAt? hat] at hplace
  cases hplace
  exact hline

theorem line_of_mem_malformedAt? (hp : lexicon.pattern.Proper) {number : Nat}
    {lines : List (List Char)} {p : Position}
    (h : p ∈ (lexicon.itemsOfLines number lines).filterMap TokenStream.malformedAt?) :
    number ≤ p.line := by
  obtain ⟨item, hitem, hat⟩ := List.mem_filterMap.mp h
  obtain ⟨q, hplace, hline⟩ := place_of_mem_itemsOfLines hp hitem
  rw [TokenStream.placeOf?_of_malformedAt? hat] at hplace
  cases hplace
  exact hline

namespace MalformedAt

theorem of_lexeme (hp : lexicon.pattern.Proper) {lexeme : Lexeme} {rest : List Char}
    (hfound : lexicon.pattern.lexeme? (lexeme.text ++ rest) = some lexeme)
    (h : lexicon.MalformedAt places start (lexeme.text ++ rest)) :
    lexicon.MalformedAt places (start.right lexeme.text.length) rest := by
  intro p hline hcolumn
  rw [h p hline (Nat.le_trans (Nat.le_add_right _ _) hcolumn), malformedAt?_of_lexeme hp hfound]

/-- There is none in a lexeme. -/
theorem not_mem_of_lexeme (hp : lexicon.pattern.Proper) {lexeme : Lexeme} {rest : List Char}
    (hfound : lexicon.pattern.lexeme? (lexeme.text ++ rest) = some lexeme)
    (h : lexicon.MalformedAt places start (lexeme.text ++ rest)) {entry : Position × Char}
    (hentry : entry ∈ Text.placedLine start lexeme.text) : entry.1 ∉ places := by
  obtain ⟨hline, hle, hlt⟩ := Text.place_of_mem_placedLine hentry
  rw [h _ hline hle, malformedAt?_of_lexeme hp hfound]
  intro hmem
  exact absurd (place_of_mem_malformedAt? hp hmem).2 (Nat.not_le.mpr hlt)

theorem start_mem {c : Char} {rest : List Char}
    (hnone : lexicon.pattern.lexeme? (c :: rest) = none)
    (h : lexicon.MalformedAt places start (c :: rest)) : start ∈ places := by
  rw [h start rfl (Nat.le_refl _), itemsOfLine_of_none hnone]
  exact List.mem_cons_self

theorem of_none {c : Char} {rest : List Char}
    (hnone : lexicon.pattern.lexeme? (c :: rest) = none)
    (h : lexicon.MalformedAt places start (c :: rest)) :
    lexicon.MalformedAt places (start.right 1) rest := by
  intro p hline hcolumn
  rw [h p hline (Nat.le_trans (Nat.le_add_right _ _) hcolumn), itemsOfLine_of_none hnone]
  refine List.mem_cons.trans (or_iff_right ?_)
  rintro rfl
  exact absurd hcolumn (Nat.not_succ_le_self _)

end MalformedAt

end Lexicon

/-- Of the items of a text, some are left over, and the others report the characters at the given
places, one by one. -/
structure TokenStream.PassedOver (places : List Position) (entries : List (Position × Char))
    (items others : List (Except (Stop TokenError) Token)) : Prop where
  others : others = items.filter fun item => (malformedAt? item).isNone
  reports : (items.filter fun item => (malformedAt? item).isSome) =
    (entries.filter fun entry => entry.1 ∈ places).map malformedItem

namespace TokenStream.PassedOver

variable {places : List Position} {entries entries' : List (Position × Char)}
  {items items' others others' : List (Except (Stop TokenError) Token)}

theorem nil : PassedOver places [] [] [] := ⟨rfl, rfl⟩

theorem append (h : PassedOver places entries items others)
    (h' : PassedOver places entries' items' others') :
    PassedOver places (entries ++ entries') (items ++ items') (others ++ others') where
  others := by rw [List.filter_append, h.others, h'.others]
  reports := by rw [List.filter_append, List.filter_append, List.map_append, h.reports, h'.reports]

/-- Nothing is passed over where there is none of the places. -/
theorem of_none {item : Option (Except (Stop TokenError) Token)}
    (hitem : ∀ given, item = some given → malformedAt? given = none)
    (hentries : ∀ entry ∈ entries, entry.1 ∉ places) :
    PassedOver places entries item.toList item.toList := by
  have hnone : (entries.filter fun entry => entry.1 ∈ places) = [] :=
    List.filter_eq_nil_iff.mpr fun entry hentry => by simpa using hentries entry hentry
  cases item with
  | none => exact ⟨rfl, by rw [hnone]; rfl⟩
  | some given =>
    have hgiven := hitem given rfl
    exact ⟨by simp [hgiven], by simp [hgiven, hnone]⟩

theorem report {entry : Position × Char} (h : entry.1 ∈ places) :
    PassedOver places [entry] [malformedItem entry] [] :=
  ⟨rfl, by simp [h, malformedItem, malformedAt?]⟩

end TokenStream.PassedOver

namespace Lexicon

variable {lexicon : Lexicon} {places : List Position} {start : Position}

/-- A line with blanks for its malformed characters gives what the line gives but for the reports of
these. -/
theorem items_blankedLine (hp : lexicon.pattern.Proper) (hspace : lexicon.pattern.Spaceless)
    {line : List Char} (h : lexicon.MalformedAt places start line) :
    List.Forall₂ Blanks line ((Text.placedLine start line).map (Text.blankAt places)) ∧
      TokenStream.PassedOver places (Text.placedLine start line) (lexicon.itemsOfLine start line)
        (lexicon.itemsOfLine start ((Text.placedLine start line).map (Text.blankAt places))) := by
  induction line using Pattern.line_induction hp generalizing start with
  | nil => 
    refine ⟨.nil, ?_⟩
    rw [Text.placedLine, List.map_nil, itemsOfLine_nil]
    exact .nil
  | lexeme lexeme rest hfound ih =>
    obtain ⟨hblanks, hpassed⟩ := ih (h.of_lexeme hp hfound)
    have hnone : ∀ entry ∈ Text.placedLine start lexeme.text, entry.1 ∉ places :=
      fun _ => h.not_mem_of_lexeme hp hfound
    have hreport : ∀ item, lexicon.item? (.ofLexeme lexeme start) = some item →
        TokenStream.malformedAt? item = none := fun _ hitem => (place_of_item? hfound hitem).1
    simp only [Text.placedLine_append, List.map_append, Text.blanked_of_not_mem hnone]
    generalize (Text.placedLine (start.right lexeme.text.length) rest).map (Text.blankAt places) =
      rest' at hblanks hpassed ⊢
    refine ⟨List.rel_append (Blanks.list_refl _) hblanks, ?_⟩
    rw [itemsOfLine_of_lexeme hp hfound]
    have hpassed' := (TokenStream.PassedOver.of_none hreport hnone).append hpassed
    have hblanked := hblanks.imp fun _ _ h => h.blanked
    obtain ⟨hcategory, hrun⟩ | hfound' := Pattern.blanks_or_found hp hspace hblanked hfound
    · have hitem : lexicon.item? (.ofLexeme lexeme start) = none := by
        rw [Piece.ofLexeme, hcategory]
        rfl
      rw [itemsOfLine_blanks hp hrun]
      rw [hitem] at hpassed' ⊢
      exact hpassed'
    · rw [itemsOfLine_of_lexeme hp hfound']
      exact hpassed'
  | malformed c rest hnone ih =>
    obtain ⟨hblanks, hpassed⟩ := ih (h.of_none hnone)
    have hstart := h.start_mem hnone
    have hblank : Text.blankAt places (start, c) = ' ' := if_pos hstart
    rw [Text.placedLine, List.map_cons, hblank]
    refine ⟨.cons (Pattern.blanks_of_none hnone) hblanks, ?_⟩
    rw [itemsOfLine_of_none hnone]
    have hspace : lexicon.itemsOfLine start (' ' ::
        (Text.placedLine (start.right 1) rest).map (Text.blankAt places)) = _ :=
      items_blank hp (by decide) _
    rw [hspace]
    exact (@TokenStream.PassedOver.report places (start, c) hstart).append hpassed

/-- So do some lines. -/
theorem items_blankedLines (hp : lexicon.pattern.Proper) (hspace : lexicon.pattern.Spaceless)
    (number : Nat) (lines : List (List Char)) (h : ∀ p : Position, number ≤ p.line →
      (p ∈ places ↔ p ∈ (lexicon.itemsOfLines number lines).filterMap TokenStream.malformedAt?)) :
    List.Forall₂ (List.Forall₂ Blanks) lines (Text.blankedLines places number lines) ∧
      TokenStream.PassedOver places (Text.placedLines number lines)
        (lexicon.itemsOfLines number lines)
        (lexicon.itemsOfLines number (Text.blankedLines places number lines)) := by
  induction lines generalizing number with
  | nil => exact ⟨.nil, .nil⟩
  | cons line lines ih =>
    simp only [itemsOfLines_cons, List.filterMap_append, List.mem_append] at h
    have hline : lexicon.MalformedAt places ⟨number, 1⟩ line := by
      intro p hsame _
      rw [h p (Nat.le_of_eq hsame.symm)]
      refine or_iff_left fun hmem => ?_
      exact absurd (line_of_mem_malformedAt? hp hmem) (Nat.not_le.mpr (hsame ▸ Nat.lt_succ_self _))
    have hlines := ih (number + 1) fun p hle => by
      rw [h p (Nat.le_of_succ_le hle)]
      refine or_iff_right fun hmem => ?_
      have hsame := (place_of_mem_malformedAt? hp hmem).1
      exact absurd hle (Nat.not_le.mpr (hsame ▸ Nat.lt_succ_self _))
    obtain ⟨hblanks, hpassed⟩ := items_blankedLine hp hspace hline
    rw [Text.blankedLines, Text.placedLines, itemsOfLines_cons, itemsOfLines_cons]
    exact ⟨.cons hblanks hlines.1, hpassed.append hlines.2⟩

/-- No symbol of the language has a blank in it. -/
theorem spaceless_standard : standard.pattern.Spaceless := by
  have hall : ∀ symbol ∈ standardSymbols.map Prod.fst, ' ' ∉ symbol.toList := by decide
  intro symbol hsymbol
  exact hall symbol (List.mem_mergeSort.mp hsymbol)

/-- What comes of a text, but for the end. -/
theorem items_ofBytes (text : String) : ∃ stop, TokenStream.itemsOfBytes text =
    standard.itemsOfLines 1 (Text.splitAfter (· == '\n') text.toList) ++
      [.ok (Token.endOfText stop)] := by
  rw [TokenStream.itemsOfBytes, Source.ofBytes_toUTF8, TokenStream.items_ofText Proper.standard]
  exact ⟨_, rfl⟩

end Lexicon

/-! ## A text -/

/-- A malformed character is as good as a blank, but for its report: an iteration over a text gives
just what it gives over the text with a blank for each malformed character, and in between, at the
place of each of them, the report of this character. Only the end of the text may be said to be
elsewhere. -/
theorem malformed_passed_over (text : String) :
    let places := (TokenStream.itemsOfBytes text).filterMap TokenStream.malformedAt?
    let blanked := String.ofList (Text.blanked places text.toList)
    ∃ items stop stop',
      TokenStream.itemsOfBytes text = items ++ [.ok (Token.endOfText stop)] ∧
      TokenStream.itemsOfBytes blanked =
        (items.filter fun item => (TokenStream.malformedAt? item).isNone) ++
          [.ok (Token.endOfText stop')] ∧
      (TokenStream.itemsOfBytes blanked).filterMap TokenStream.malformedAt? = [] ∧
      (items.filter fun item => (TokenStream.malformedAt? item).isSome) =
        ((Text.placed text.toList).filter fun entry => entry.1 ∈ places).map
          TokenStream.malformedItem ∧
      items.Pairwise TokenStream.Before := by
  intro places blanked
  obtain ⟨stop, hitems⟩ := Lexicon.items_ofBytes text
  obtain ⟨stop', hblanked⟩ := Lexicon.items_ofBytes blanked
  have hp : Lexicon.standard.pattern.Proper := Lexicon.proper_standard
  have hplaces : places = (Lexicon.standard.itemsOfLines 1
      (Text.splitAfter (· == '\n') text.toList)).filterMap TokenStream.malformedAt? := by
    show List.filterMap _ _ = _
    rw [hitems, List.filterMap_append]
    exact List.append_nil _
  obtain ⟨hblanks, hpassed⟩ := Lexicon.items_blankedLines hp Lexicon.spaceless_standard 1
    (Text.splitAfter (· == '\n') text.toList) fun p _ => show p ∈ places ↔ _ by rw [hplaces]
  have hlines : Text.splitAfter (· == '\n') blanked.toList =
      Text.blankedLines places 1 (Text.splitAfter (· == '\n') text.toList) := by
    have hparts := (Text.parts_splitAfter (· == '\n') text.toList).of_forall₂
      (fun _ _ h => h.lineFeed_eq) hblanks
    rw [← hparts.splitAfter_flatten, Text.flatten_blankedLines, String.toList_ofList]
    rfl
  rw [hlines, hpassed.others] at hblanked
  refine ⟨_, stop, stop', hitems, hblanked, ?_, hpassed.reports,
    Lexicon.pairwise_itemsOfLines hp 1 _⟩
  rw [hblanked, List.filterMap_append, List.append_eq_nil_iff]
  refine ⟨List.filterMap_eq_nil_iff.mpr fun item hitem => ?_, rfl⟩
  exact Option.isNone_iff_eq_none.mp (List.mem_filter.mp hitem).2

/-- For example malformed characters behind a name, within a word and between two signs that would
make one. -/
example : TokenStream.itemsOfBytes "aé& =/=" =
    [.ok ⟨.identifier, "a", ⟨⟨1, 1⟩, ⟨1, 2⟩⟩, none⟩,
      .error (.error (.lexeme (.malformed "é" ⟨1, 2⟩))),
      .error (.error (.lexeme (.malformed "&" ⟨1, 3⟩))),
      .ok ⟨.assign, "=", ⟨⟨1, 5⟩, ⟨1, 6⟩⟩, none⟩,
      .error (.error (.lexeme (.malformed "/" ⟨1, 6⟩))),
      .ok ⟨.assign, "=", ⟨⟨1, 7⟩, ⟨1, 8⟩⟩, none⟩,
      .ok (Token.endOfText ⟨1, 8⟩)] := by
  cbv

end ListScript
