import ListScript.Proofs.TokenRun

/-!
# Reading loses nothing

A reader that is asked as long as there is more hands over the whole text, in order, and says of every
lexeme and of every malformed character where it stands.

* `LosslessReading` : all this of one text and one set of symbols;
* `exists_losslessReading` : it holds of every text, unless the empty text is a symbol.
-/

namespace ListScript

/-- A reader with the given symbols reads the bytes of a text piece by piece. -/
structure LosslessReading (symbols : List String) (text : String) (pieces : List Piece)
    (s : Reader) : Prop where
  /-- Asked as long as there is more, the reader gives the pieces. -/
  run : (Reader.ofSource (Pattern.ofSymbols symbols)
    (Source.ofBytes text.toUTF8.data.toList none)).Run pieces s
  /-- It gives nothing else. -/
  unique : ∀ pieces' s', (Reader.ofSource (Pattern.ofSymbols symbols)
    (Source.ofBytes text.toUTF8.data.toList none)).Run pieces' s' → pieces' = pieces ∧ s' = s
  /-- The pieces, put together, are the text. -/
  lossless : Piece.chars pieces = text.toList
  /-- Every piece begins where the text before it ends, and ends as far to the right as it has
  characters. -/
  places : ∀ earlier piece later, pieces = earlier ++ piece :: later →
    piece.start = Position.after (Piece.chars earlier) ∧
      piece.stop = piece.start.right piece.text.length
  /-- The text of a token is what the source holds at its span. -/
  tokens : ∀ lexicon : Lexicon, lexicon.symbols.map Prod.fst = symbols → ∀ t : Token,
    .ok t ∈ (TokenStream.ofSource lexicon (Source.ofBytes text.toUTF8.data.toList none)).items →
    t.kind ≠ .endOfText → ∃ before rest, text.toList = before ++ t.text.toList ++ rest ∧
      t.span = ⟨Position.after before, (Position.after before).right t.text.length⟩

/-- The token that comes of a piece has its text and its span. -/
theorem Lexicon.text_of_item? {lexicon : Lexicon} {piece : Piece} {t : Token}
    (h : lexicon.item? piece = some (.ok t)) :
    t.text = piece.text ∧ t.span = ⟨piece.start, piece.stop⟩ := by
  rcases piece with ⟨text, _ | _ | _ | _, span⟩ | ⟨text, position⟩
  · have h : lexicon.symbolToken text span = .ok t := Option.some.inj h
    unfold symbolToken at h
    split at h
    · cases h; exact ⟨rfl, rfl⟩
    · cases h
  · have h : lexicon.wordToken text span = t := Except.ok.inj (Option.some.inj h)
    subst h
    unfold wordToken
    split <;> exact ⟨rfl, rfl⟩
  · have h : numeralToken text span = .ok t := Option.some.inj h
    unfold numeralToken at h
    split at h
    · cases h
    · split at h
      · cases h; exact ⟨rfl, rfl⟩
      · cases h
  · cases h
  · cases h

/-- Every text is read without loss. -/
theorem exists_losslessReading {symbols : List String} (h : "" ∉ symbols) (text : String) :
    ∃ pieces s, LosslessReading symbols text pieces s := by
  have hp := Pattern.proper_ofSymbols h
  obtain ⟨s, hrun⟩ := (Reader.finds_ofText hp text).run
  rw [← Source.ofBytes_toUTF8] at hrun
  have hplaces : ∀ earlier piece later,
      (Pattern.ofSymbols symbols).pieces text.toList = earlier ++ piece :: later →
      piece.start = Position.after (Piece.chars earlier) ∧
        piece.stop = piece.start.right piece.text.length := by
    intro earlier piece later heq
    have hplaced := Pattern.placed_pieces hp text.toList
    rw [heq] at hplaced
    exact hplaced.of_mem
  refine ⟨_, s, hrun, fun pieces' s' h' => ?_, Pattern.chars_pieces hp _, hplaces, ?_⟩
  · obtain ⟨rfl, rfl⟩ := hrun.unique h'
    exact ⟨rfl, rfl⟩
  · rintro lexicon rfl t ht hkind
    rw [Source.ofBytes_toUTF8, TokenStream.items_ofText h] at ht
    obtain ht | ht := List.mem_append.mp ht
    · obtain ⟨piece, hpiece, hitem⟩ := List.mem_filterMap.mp ht
      obtain ⟨htext, hspan⟩ := Lexicon.text_of_item? hitem
      obtain ⟨earlier, later, heq⟩ := List.append_of_mem hpiece
      obtain ⟨hstart, hstop⟩ := hplaces earlier piece later heq
      have hall := Pattern.chars_pieces hp text.toList
      refine ⟨Piece.chars earlier, Piece.chars later, ?_, ?_⟩
      · rw [← hall, htext]
        change Piece.chars (lexicon.pattern.pieces text.toList) = _
        rw [heq]
        simp [Piece.chars]
      · rw [hspan, htext, hstop, hstart]
    · cases List.mem_singleton.mp ht
      exact absurd rfl hkind

/-- For example this text of two lines, with a character of two bytes in a comment and a malformed
one. -/
theorem exists_losslessReading_twoLines :
    "" ∉ ["=", "=="] ∧ ∃ pieces s, LosslessReading ["=", "=="] "x == 1 // é\n  é = y" pieces s := by
  have h : "" ∉ ["=", "=="] := by decide
  exact ⟨h, exists_losslessReading h _⟩

end ListScript
