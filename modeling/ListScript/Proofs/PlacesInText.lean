import ListScript.Proofs.Layout
import ListScript.Proofs.Lossless

/-!
# Where the lines of a text are

The lines of a text are numbered as its places are. So the character that stands in some place is found
in the line of that number at that column, whatever ends the lines: a line loses its line feed and one
carriage return before it, and neither begins anything of a program.

* `Text.lineFeed_not_mem`, `Text.line?_after` : no line holds a line feed, and a place is found in the
  line of its number;
* `Lexicon.isBlank_of_mem_lexeme`, `Piece.FoundBy.head` : what a piece of the language begins with;
* `TokenStream.Carries` : the text and the place that an item of an iteration carries;
  `TokenStream.exists_place` : the text stands in that place.
-/

namespace ListScript

/-! ## Lines -/

namespace Text

/-- Only ends of lines are dropped. -/
theorem exists_lineEnd (part : List Char) :
    ∃ ending, part = dropLineEnd part ++ ending ∧ ∀ c ∈ ending, c = '\n' ∨ c = '\r' := by
  unfold dropLineEnd
  split
  · next text h =>
    refine ⟨['\r', '\n'], ?_, by simp⟩
    rw [← List.reverse_reverse part, h]
    simp
  · next text h =>
    refine ⟨['\n'], ?_, by simp⟩
    rw [← List.reverse_reverse part, h]
    simp
  · exact ⟨[], (List.append_nil part).symm, nofun⟩

theorem dropLineEnd_subset (part : List Char) : dropLineEnd part ⊆ part := by
  obtain ⟨ending, hpart, -⟩ := exists_lineEnd part
  intro c hc
  rw [hpart]
  exact List.mem_append_left _ hc

theorem dropLineEnd_concat_subset (body : List Char) : dropLineEnd (body ++ ['\n']) ⊆ body := by
  intro c hc
  unfold dropLineEnd at hc
  rw [List.reverse_append, List.reverse_singleton, List.singleton_append] at hc
  split at hc
  · next text h =>
    rw [← List.reverse_reverse body, (List.cons.inj h).2]
    simp only [List.reverse_cons, List.mem_append]
    exact .inl hc
  · next text h =>
    rw [← List.reverse_reverse body, (List.cons.inj h).2]
    exact hc
  · next h => exact absurd rfl (h body.reverse)

/-- No line holds a line feed. -/
theorem lineFeed_not_mem {s line : List Char} (h : line ∈ lines s) : '\n' ∉ line := by
  obtain ⟨part, hpart, rfl⟩ := List.mem_map.mp h
  have hparts := parts_splitAfter (· == '\n') s
  clear h
  generalize splitAfter (· == '\n') s = parts at hpart hparts
  induction hparts with
  | nil => cases hpart
  | last _ hlast =>
    cases List.mem_singleton.mp hpart
    exact fun hmem => by simpa using hlast _ (dropLineEnd_subset _ hmem)
  | @cons body c parts hbody hc _ ih =>
    obtain rfl | hpart := List.mem_cons.mp hpart
    · obtain rfl : c = '\n' := by simpa using hc
      exact fun hmem => by simpa using hbody _ (dropLineEnd_concat_subset body hmem)
    · exact ih hpart

section Place

variable (before rest : List Char) {c : Char}

/-- The last line of a text begins behind its last line feed. -/
theorem exists_lastLine : ∃ head tail, before = head ++ tail ∧ Whole (· == '\n') head ∧
    '\n' ∉ tail ∧ Position.after before = ⟨head.countP (· == '\n') + 1, tail.length + 1⟩ := by
  induction before using List.reverseRecOn with
  | nil => exact ⟨[], [], rfl, nofun, List.not_mem_nil, rfl⟩
  | append_singleton text c ih =>
    by_cases hc : c = '\n'
    · subst hc
      refine ⟨text ++ ['\n'], [], (List.append_nil _).symm, whole_concat text rfl,
        List.not_mem_nil, ?_⟩
      rw [Position.after_lineFeed, List.countP_append]
      simp [Position.after, List.count, Nat.add_comm]
    · obtain ⟨head, tail, rfl, hwhole, htail, hafter⟩ := ih
      have hnot : '\n' ∉ [c] := by simpa using Ne.symm hc
      refine ⟨head, tail ++ [c], List.append_assoc head tail [c], hwhole, ?_, ?_⟩
      · rw [List.mem_append, not_or]
        exact ⟨htail, hnot⟩
      · rw [Position.after_append hnot, hafter, List.length_append]
        rfl

/-- A character that ends no line is found in the line of its place, at its column. -/
theorem line?_after (hfeed : c ≠ '\n') (hreturn : c ≠ '\r') : ∃ row,
    line? (before ++ c :: rest) (Position.after before).line = some row ∧
      row[(Position.after before).column - 1]? = some c := by
  obtain ⟨head, tail, rfl, hwhole, htail, hafter⟩ := exists_lastLine before
  have hword : ∀ x ∈ tail ++ [c], (x == '\n') = false := by
    intro x hx
    rw [beq_eq_false_iff_ne]
    rintro rfl
    obtain hx | hx := List.mem_append.mp hx
    · exact htail hx
    · exact hfeed (List.mem_singleton.mp hx).symm
  obtain ⟨more, parts, hparts⟩ : ∃ more parts,
      splitAfter (· == '\n') (tail ++ c :: rest) = (tail ++ c :: more) :: parts := by
    rw [List.append_cons, splitAfter_append (by simp) hword]
    cases splitAfter (· == '\n') rest with
    | nil => exact ⟨[], [], by simp⟩
    | cons part parts => exact ⟨part, parts, by simp⟩
  refine ⟨dropLineEnd (tail ++ c :: more), ?_, ?_⟩
  · rw [hafter, line?, lines, List.append_assoc, splitAfter_append_of_whole hwhole, hparts,
      List.map_append, List.getElem?_append_right (by simp [hwhole.length_splitAfter])]
    simp [hwhole.length_splitAfter]
  · -- the character is not in what is dropped at the end of the line
    obtain ⟨ending, hpart, hending⟩ := exists_lineEnd (tail ++ c :: more)
    have hc : (dropLineEnd (tail ++ c :: more) ++ ending)[tail.length]? = some c := by
      rw [← hpart, List.getElem?_append_right (Nat.le_refl _), Nat.sub_self]
      rfl
    rw [hafter, Nat.add_sub_cancel]
    by_cases hlt : tail.length < (dropLineEnd (tail ++ c :: more)).length
    · rwa [List.getElem?_append_left hlt] at hc
    · rw [List.getElem?_append_right (Nat.le_of_not_lt hlt)] at hc
      exact absurd (hending c (List.mem_of_getElem? hc)) (not_or.mpr ⟨hfeed, hreturn⟩)

end Place

end Text

/-! ## What a lexeme begins with -/

namespace Text

theorem isBlank_of_printable {c : Char} (h : 0x20 < c.toNat) (h' : c.toNat < 0x7F) :
    isBlank c = false := by
  simp only [isBlank, Bool.or_eq_false_iff, Bool.and_eq_false_iff, decide_eq_false_iff_not,
    beq_eq_false_iff_ne]
  omega

theorem isBlank_of_isWordChar {c : Char} (h : isWordChar c = true) : isBlank c = false := by
  have hrange : 0x20 < c.toNat ∧ c.toNat < 0x7F := by
    simp only [isWordChar, isLetter, isDigit, Bool.or_eq_true, Bool.and_eq_true, decide_eq_true_eq,
      Char.le_def, UInt32.le_iff_toNat_le] at h
    rcases h with (⟨h, h'⟩ | ⟨h, h'⟩) | ⟨h, h'⟩
    · change 97 ≤ c.toNat at h
      change c.toNat ≤ 122 at h'
      omega
    · change 65 ≤ c.toNat at h
      change c.toNat ≤ 90 at h'
      omega
    · change 48 ≤ c.toNat at h
      change c.toNat ≤ 57 at h'
      omega
  exact isBlank_of_printable hrange.1 hrange.2

end Text

/-- Of the lexemes of the language only separators hold blanks. -/
theorem Lexicon.isBlank_of_mem_lexeme {text : List Char} {lexeme : Lexeme}
    (h : standard.pattern.lexeme? text = some lexeme) (hcategory : lexeme.category ≠ some .blank) :
    ∀ c ∈ lexeme.text, Text.isBlank c = false := by
  unfold Pattern.lexeme? at h
  split at h
  · next found hword =>
    cases h
    exact fun c hc =>
      Text.isBlank_of_isWordChar (isWordChar_of_mem (Category.isWord_of_word? hword) c hc)
  · split at h
    · next found hnumeral =>
      cases h
      intro c hc
      refine Text.isBlank_of_isWordChar ?_
      obtain ⟨-, hdigits, -⟩ | ⟨b, bits, rfl, hb, -, hbits⟩ := Numeral.numeral?_inv hnumeral
      · exact Numeral.isWordChar_of_isDigit (hdigits c hc)
      · obtain rfl | hc := List.mem_cons.mp hc
        · decide
        · obtain rfl | hc := List.mem_cons.mp hc
          · rcases hb with rfl | rfl <;> decide
          · exact Numeral.isWordChar_of_isDigit (Numeral.isDigit_of_isBit (hbits c hc))
    · split at h
      · cases h
        exact absurd rfl hcategory
      · split at h
        · next symbol hsymbol =>
          cases h
          have hall : ∀ symbol ∈ standard.pattern.symbols,
              symbol.toList.all (fun c => !Text.isBlank c) = true := by
            rw [symbols_standard]
            decide
          have hchars := hall symbol (List.mem_of_find?_eq_some hsymbol)
          simpa using List.all_eq_true.mp hchars
        · cases h

/-- What a piece of which something comes begins with is no separator, and no blank unless it is
malformed. -/
theorem Piece.FoundBy.head {piece : Piece} (h : piece.FoundBy Lexicon.standard.pattern)
    {item : Except (Stop TokenError) Token} (hitem : Lexicon.standard.item? piece = some item) :
    ∃ c more, piece.text.toList = c :: more ∧ Text.isSpace c = false ∧
      (Text.isBlank c = true → ∃ position, piece = .malformed (String.singleton c) position) := by
  cases h with
  | @lexeme lexeme rest start found =>
    obtain ⟨c, more, htext⟩ :=
      List.exists_cons_of_length_pos (Lexicon.proper_standard.length_pos found)
    have hcategory : lexeme.category ≠ some .blank := by
      intro hblank
      rw [Piece.ofLexeme, hblank] at hitem
      cases hitem
    have hc : c ∈ lexeme.text := by
      rw [htext]
      exact List.mem_cons_self
    have hblank := Lexicon.isBlank_of_mem_lexeme found hcategory c hc
    refine ⟨c, more, String.toList_ofList.trans htext, ?_, fun htrue => ?_⟩
    · exact Bool.eq_false_iff.mpr fun hspace =>
        Bool.false_ne_true (hblank.symm.trans (Text.isBlank_of_isSpace hspace))
    · exact absurd (hblank.symm.trans htrue) Bool.false_ne_true
  | @malformed c rest position none =>
    refine ⟨c, [], String.toList_singleton c, ?_, fun _ => ⟨position, rfl⟩⟩
    refine Bool.eq_false_iff.mpr fun hspace => ?_
    rw [Pattern.lexeme?_blank hspace] at none
    cases none

/-! ## What an item carries -/

/-- An error that comes of a piece carries its text and its place. -/
theorem Lexicon.error_of_item? {lexicon : Lexicon} {piece : Piece} {e : TokenError}
    (h : lexicon.item? piece = some (.error (.error e))) :
    e = .lexeme (.malformed piece.text piece.start) ∨ e = .outOfRange piece.text piece.start := by
  rcases piece with ⟨text, _ | _ | _ | _, span⟩ | ⟨text, position⟩
  · have h : lexicon.symbolToken text span = .error (.error e) := Option.some.inj h
    unfold symbolToken at h
    split at h <;> cases h
  · cases h
  · have h : numeralToken text span = .error (.error e) := Option.some.inj h
    unfold numeralToken at h
    split at h
    · cases h
    · split at h <;> cases h
      exact .inr rfl
  · cases h
  · cases h
    exact .inl rfl

namespace TokenStream

/-- The text and the place that come with a token, a malformed character and a numeral out of range. -/
inductive Carries : Except (Stop TokenError) Token → String → Position → Prop
  | token {t : Token} (other : t.kind ≠ .endOfText) : Carries (.ok t) t.text t.span.start
  | malformed {text : String} {position : Position} :
    Carries (.error (.error (.lexeme (.malformed text position)))) text position
  | outOfRange {text : String} {position : Position} :
    Carries (.error (.error (.outOfRange text position))) text position

variable {item : Except (Stop TokenError) Token} {text : String} {position : Position}

/-- They are those of the piece of which the item comes. -/
theorem Carries.of_item? {lexicon : Lexicon} {piece : Piece} (h : Carries item text position)
    (hitem : lexicon.item? piece = some item) : piece.text = text ∧ piece.start = position := by
  cases h with
  | token =>
    obtain ⟨htext, hspan⟩ := Lexicon.text_of_item? hitem
    exact ⟨htext.symm, congrArg Span.start hspan.symm⟩
  | malformed | outOfRange =>
    obtain heq | heq := Lexicon.error_of_item? hitem <;> cases heq
    exact ⟨rfl, rfl⟩

/-- What an item carries stands in the text in its place. It begins with no separator, and with no
blank unless it is a malformed one. -/
theorem exists_place {whole : String}
    (hmem : item ∈ (ofSource Lexicon.standard (Source.ofText whole)).items)
    (h : Carries item text position) : ∃ before c more rest,
      whole.toList = before ++ c :: rest ∧ text.toList = c :: more ∧
        position = Position.after before ∧ Text.isSpace c = false ∧
          (Text.isBlank c = true →
            item = .error (.error (.lexeme (.malformed text position)))) := by
  rw [items_ofText Lexicon.Proper.standard] at hmem
  obtain hmem | hmem := List.mem_append.mp hmem
  · obtain ⟨piece, hpiece, hitem⟩ := List.mem_filterMap.mp hmem
    obtain ⟨rfl, rfl⟩ := h.of_item? hitem
    obtain ⟨before, rest, hwhole, hstart⟩ :=
      Pattern.exists_place_of_mem_pieces Lexicon.proper_standard hpiece
    have hfound := Pattern.foundBy_of_mem_pieces Lexicon.proper_standard hpiece
    obtain ⟨c, more, htext, hspace, hblank⟩ := hfound.head hitem
    rw [htext, List.cons_append] at hwhole
    refine ⟨before, c, more, more ++ rest, hwhole, htext, hstart, hspace, fun hc => ?_⟩
    obtain ⟨position, rfl⟩ := hblank hc
    exact (Option.some.inj hitem).symm
  · cases List.mem_singleton.mp hmem
    cases h with
    | token other => exact absurd rfl other

end TokenStream

end ListScript
