import ListScript.Proofs.Layout
import ListScript.Proofs.Lossless

/-!
# What comes of a line

* `Lexicon.itemsOfLine`, `Lexicon.itemsOfLines` : what comes of a line and of some lines;
* `Lexicon.itemsOfLine_of_lexeme`, `Lexicon.itemsOfLine_of_none`, `Lexicon.itemsOfLine_blanks` : from
  the front on;
* `TokenStream.placeOf?`, `TokenStream.Before` : the place of an item, and the order of places;
* `Lexicon.pairwise_itemsOfLines` : what comes of some lines comes in the order of its places.
-/

namespace ListScript

/-! ## Places -/

/-- The one place comes before the other in a text. -/
def Position.Before (p q : Position) : Prop := p.line < q.line ∨ p.line = q.line ∧ p.column < q.column

namespace TokenStream

/-- Where the malformed character stands that an item of an iteration reports. -/
def malformedAt? : Except (Stop TokenError) Token → Option Position
  | .error (.error (.lexeme (.malformed _ position))) => some position
  | _ => none

/-- The report of a malformed character. -/
def malformedItem (entry : Position × Char) : Except (Stop TokenError) Token :=
  .error (.error (.lexeme (.malformed (String.singleton entry.2) entry.1)))

/-- Where the text begins that an item of an iteration is about. -/
def placeOf? : Except (Stop TokenError) Token → Option Position
  | .ok t => some t.span.start
  | .error (.error (.lexeme (.malformed _ position))) => some position
  | .error (.error (.outOfRange _ position)) => some position
  | _ => none

/-- The one item is about a place before that of the other. -/
def Before (first item : Except (Stop TokenError) Token) : Prop :=
  ∃ p q, placeOf? first = some p ∧ placeOf? item = some q ∧ p.Before q

theorem placeOf?_of_malformedAt? {item : Except (Stop TokenError) Token} {p : Position}
    (h : malformedAt? item = some p) : placeOf? item = some p := by
  unfold malformedAt? at h
  split at h
  · exact h
  · cases h

end TokenStream

/-! ## What comes of a line -/

namespace Lexicon

variable {lexicon : Lexicon} {start : Position}

/-- What comes of a line from `start` on. -/
def itemsOfLine (lexicon : Lexicon) (start : Position) (line : List Char) :
    List (Except (Stop TokenError) Token) :=
  (lexicon.pattern.piecesOfLine start line).filterMap lexicon.item?

/-- What comes of some lines, the first of which has the given number. -/
def itemsOfLines (lexicon : Lexicon) (number : Nat) (lines : List (List Char)) :
    List (Except (Stop TokenError) Token) :=
  (lexicon.pattern.piecesOfLines number lines).filterMap lexicon.item?

theorem itemsOfLine_nil : lexicon.itemsOfLine start [] = [] := by
  rw [itemsOfLine, Pattern.piecesOfLine_nil]
  rfl

theorem itemsOfLine_of_lexeme (hp : lexicon.pattern.Proper) {lexeme : Lexeme} {rest : List Char}
    (h : lexicon.pattern.lexeme? (lexeme.text ++ rest) = some lexeme) :
    lexicon.itemsOfLine start (lexeme.text ++ rest) =
      (lexicon.item? (.ofLexeme lexeme start)).toList ++
        lexicon.itemsOfLine (start.right lexeme.text.length) rest := by
  rw [itemsOfLine, Pattern.piecesOfLine_of_lexeme hp h, List.filterMap_cons]
  cases lexicon.item? (.ofLexeme lexeme start) <;> rfl

theorem itemsOfLine_of_none {c : Char} {rest : List Char}
    (h : lexicon.pattern.lexeme? (c :: rest) = none) :
    lexicon.itemsOfLine start (c :: rest) =
      TokenStream.malformedItem (start, c) :: lexicon.itemsOfLine (start.right 1) rest := by
  rw [itemsOfLine, Pattern.piecesOfLine_of_none h]
  rfl

theorem itemsOfLines_cons (number : Nat) (line : List Char) (lines : List (List Char)) :
    lexicon.itemsOfLines number (line :: lines) =
      lexicon.itemsOfLine ⟨number, 1⟩ line ++ lexicon.itemsOfLines (number + 1) lines := by
  rw [itemsOfLines, Pattern.piecesOfLines, List.filterMap_append]
  rfl

/-- Nothing comes of blanks in front of a line. -/
theorem itemsOfLine_blanks (hp : lexicon.pattern.Proper) {blanks : List Char}
    (h : ∀ c ∈ blanks, Text.isSpace c = true) (rest : List Char) :
    lexicon.itemsOfLine start (blanks ++ rest) =
      lexicon.itemsOfLine (start.right blanks.length) rest := by
  induction blanks generalizing start with
  | nil => rfl
  | cons c blanks ih =>
    obtain ⟨hc, hblanks⟩ := List.forall_mem_cons.mp h
    have hplace : (start.right 1).right blanks.length = start.right (blanks.length + 1) := by
      simp only [Position.right, Nat.add_assoc, Nat.add_comm 1]
    rw [List.length_cons, ← hplace, ← ih hblanks]
    exact items_blank hp hc _

/-- The lexemes of a text are no cause for a defect. -/
theorem item?_ne_defect {lexeme : Lexeme} {rest : List Char} {defect : Defect}
    (hfound : lexicon.pattern.lexeme? (lexeme.text ++ rest) = some lexeme) :
    lexicon.item? (.ofLexeme lexeme start) ≠ some (.error (.defect defect)) := by
  by_cases hblank : lexeme.category = some .blank
  · rw [Piece.ofLexeme, hblank]
    intro h
    cases h
  · let r : Reader := { Reader.ofSource lexicon.pattern (Source.ofText "") with
      last := some lexeme, span := ⟨start, start.right lexeme.text.length⟩ }
    have hitem : lexicon.item? (.ofLexeme lexeme start) = some (lexicon.token r) :=
      item?_of_token (r := r) hblank
    rw [hitem]
    exact fun h => token_ne_defect rfl hfound hblank (Option.some.inj h)

/-- Of a lexeme comes no report of a malformed character, and what comes of it stands where it
does. -/
theorem place_of_item? {lexeme : Lexeme} {rest : List Char} {item : Except (Stop TokenError) Token}
    (hfound : lexicon.pattern.lexeme? (lexeme.text ++ rest) = some lexeme)
    (h : lexicon.item? (.ofLexeme lexeme start) = some item) :
    TokenStream.malformedAt? item = none ∧ TokenStream.placeOf? item = some start := by
  cases item with
  | ok t =>
    refine ⟨rfl, ?_⟩
    rw [TokenStream.placeOf?, (text_of_item? h).2]
    rfl
  | error stop =>
    cases stop with
    | defect defect => exact absurd h (item?_ne_defect hfound)
    | error e =>
      rcases hcategory : lexeme.category with _ | _ | _ | _ <;> rw [Piece.ofLexeme, hcategory] at h
      · have h := Option.some.inj h
        unfold symbolToken at h
        split at h <;> cases h
      · cases h
      · have h := Option.some.inj h
        unfold numeralToken at h
        split at h
        · cases h
        · split at h
          · cases h
          · cases h
            exact ⟨rfl, rfl⟩
      · cases h

/-- What comes of a line stands on that line. -/
theorem place_of_mem_itemsOfLine (hp : lexicon.pattern.Proper) {line : List Char}
    {item : Except (Stop TokenError) Token} (hitem : item ∈ lexicon.itemsOfLine start line) :
    ∃ p, TokenStream.placeOf? item = some p ∧ p.line = start.line ∧ start.column ≤ p.column := by
  induction line using Pattern.line_induction hp generalizing start with
  | nil =>
    rw [itemsOfLine_nil] at hitem
    cases hitem
  | lexeme lexeme rest h ih =>
    rw [itemsOfLine_of_lexeme hp h, List.mem_append, Option.mem_toList] at hitem
    obtain hitem | hitem := hitem
    · exact ⟨start, (place_of_item? h hitem).2, rfl, Nat.le_refl _⟩
    · obtain ⟨p, hp, hline, hcolumn⟩ := ih hitem
      exact ⟨p, hp, hline, Nat.le_trans (Nat.le_add_right _ _) hcolumn⟩
  | malformed c rest h ih =>
    rw [itemsOfLine_of_none h, List.mem_cons] at hitem
    obtain rfl | hitem := hitem
    · exact ⟨start, rfl, rfl, Nat.le_refl _⟩
    · obtain ⟨p, hp, hline, hcolumn⟩ := ih hitem
      exact ⟨p, hp, hline, Nat.le_trans (Nat.le_add_right _ _) hcolumn⟩

/-- What stands before a part of a line stands before all that comes of it. -/
theorem before_itemsOfLine (hp : lexicon.pattern.Proper) {n : Nat} (hn : 0 < n) {rest : List Char}
    {first item : Except (Stop TokenError) Token} (hfirst : TokenStream.placeOf? first = some start)
    (hitem : item ∈ lexicon.itemsOfLine (start.right n) rest) : TokenStream.Before first item := by
  obtain ⟨p, hp, hline, hcolumn⟩ := place_of_mem_itemsOfLine hp hitem
  refine ⟨start, p, hfirst, hp, .inr ⟨hline.symm, ?_⟩⟩
  exact Nat.lt_of_lt_of_le (Nat.lt_add_of_pos_right hn) hcolumn

/-- What comes of a line comes in the order of its places. -/
theorem pairwise_itemsOfLine (hp : lexicon.pattern.Proper) (line : List Char) :
    (lexicon.itemsOfLine start line).Pairwise TokenStream.Before := by
  induction line using Pattern.line_induction hp generalizing start with
  | nil =>
    rw [itemsOfLine_nil]
    exact .nil
  | lexeme lexeme rest h ih =>
    rw [itemsOfLine_of_lexeme hp h, List.pairwise_append]
    refine ⟨?_, ih, fun first hfirst item hitem => ?_⟩
    · cases lexicon.item? (.ofLexeme lexeme start) with
      | none => exact .nil
      | some item => exact List.pairwise_singleton _ item
    · rw [Option.mem_toList] at hfirst
      exact before_itemsOfLine hp (hp.length_pos h) (place_of_item? h hfirst).2 hitem
  | malformed c rest h ih =>
    rw [itemsOfLine_of_none h, List.pairwise_cons]
    exact ⟨fun item hitem => before_itemsOfLine hp Nat.one_pos rfl hitem, ih⟩

/-- What comes of some lines stands no further up than the first of them. -/
theorem place_of_mem_itemsOfLines (hp : lexicon.pattern.Proper) {number : Nat}
    {lines : List (List Char)} {item : Except (Stop TokenError) Token}
    (hitem : item ∈ lexicon.itemsOfLines number lines) :
    ∃ p, TokenStream.placeOf? item = some p ∧ number ≤ p.line := by
  induction lines generalizing number with
  | nil => cases hitem
  | cons line lines ih =>
    rw [itemsOfLines_cons, List.mem_append] at hitem
    obtain hitem | hitem := hitem
    · obtain ⟨p, hp, hline, -⟩ := place_of_mem_itemsOfLine hp hitem
      exact ⟨p, hp, Nat.le_of_eq hline.symm⟩
    · obtain ⟨p, hp, hline⟩ := ih hitem
      exact ⟨p, hp, Nat.le_of_succ_le hline⟩

/-- What comes of some lines comes in the order of its places. -/
theorem pairwise_itemsOfLines (hp : lexicon.pattern.Proper) (number : Nat)
    (lines : List (List Char)) :
    (lexicon.itemsOfLines number lines).Pairwise TokenStream.Before := by
  induction lines generalizing number with
  | nil => exact .nil
  | cons line lines ih =>
    rw [itemsOfLines_cons, List.pairwise_append]
    refine ⟨pairwise_itemsOfLine hp line, ih _, fun first hfirst item hitem => ?_⟩
    obtain ⟨p, hplace, hline, -⟩ := place_of_mem_itemsOfLine hp hfirst
    obtain ⟨q, hplace', hline'⟩ := place_of_mem_itemsOfLines hp hitem
    exact ⟨p, q, hplace, hplace', .inl (hline ▸ hline')⟩

end Lexicon

end ListScript
