import ListScript.Proofs.ReaderSteps
import ListScript.Proofs.SourceText

/-!
# The pieces of a text

A text falls into lexemes and malformed characters, each at its place. They are found line by line,
for no lexeme goes on in the next line.

* `Piece` : what a reader says of a lexeme or of a malformed character;
* `Pattern.piecesOfLine`, `Pattern.piecesOfLines`, `Pattern.pieces` : the pieces of a line, of some
  lines and of a text (`Pattern.piecesOfLine_of_lexeme`, `Pattern.piecesOfLine_of_none`);
* `Piece.FoundBy p` : what a text can begin with (`Pattern.foundBy_of_mem_pieces`);
* `Pattern.chars_pieces` : nothing is lost;
* `Position.after` : the place after a text; `Piece.Placed` : pieces stand at their places
  (`Pattern.placed_pieces`, `Pattern.exists_place_of_mem_pieces`).
-/

namespace ListScript

/-- What a reader says of a lexeme or of a character with which none begins. -/
inductive Piece where
  | lexeme (text : String) (category : Option Category) (span : Span)
  | malformed (text : String) (position : Position)
  deriving DecidableEq, Repr

namespace Piece

/-- The text of a piece. -/
def text : Piece → String
  | .lexeme text _ _ | .malformed text _ => text

/-- Where a piece begins. -/
def start : Piece → Position
  | .lexeme _ _ span => span.start
  | .malformed _ position => position

/-- Where a piece ends. A malformed character takes up one column. -/
def stop : Piece → Position
  | .lexeme _ _ span => span.stop
  | .malformed _ position => position.right 1

/-- A lexeme at a place. -/
def ofLexeme (lexeme : Lexeme) (start : Position) : Piece :=
  .lexeme (String.ofList lexeme.text) lexeme.category ⟨start, start.right lexeme.text.length⟩

/-- A malformed character at a place. -/
def ofChar (c : Char) (position : Position) : Piece := .malformed (String.singleton c) position

/-- What some pieces hold, put together. -/
def chars (pieces : List Piece) : List Char := pieces.flatMap fun piece => piece.text.toList

/-- What is found at the beginning of some text: a lexeme, or a character with which none begins. -/
inductive FoundBy (p : Pattern) : Piece → Prop
  | lexeme {lexeme : Lexeme} {rest : List Char} {start : Position}
    (found : p.lexeme? (lexeme.text ++ rest) = some lexeme) : FoundBy p (.ofLexeme lexeme start)
  | malformed {c : Char} {rest : List Char} {position : Position}
    (none : p.lexeme? (c :: rest) = none) : FoundBy p (.ofChar c position)

end Piece

namespace Pattern

/-- The pieces of a line from `start` on. -/
def piecesOfLine (p : Pattern) (start : Position) (line : List Char) : List Piece :=
  match line with
  | [] => []
  | c :: rest =>
    match p.lexeme? (c :: rest) with
    | some lexeme =>
      .ofLexeme lexeme start ::
        piecesOfLine p (start.right lexeme.text.length) (rest.drop (lexeme.text.length - 1))
    | none => .ofChar c start :: piecesOfLine p (start.right 1) rest
termination_by line.length

/-- The pieces of some lines, the first of which has the given number. -/
def piecesOfLines (p : Pattern) : Nat → List (List Char) → List Piece
  | _, [] => []
  | number, line :: lines => p.piecesOfLine ⟨number, 1⟩ line ++ p.piecesOfLines (number + 1) lines

/-- The pieces of a text. -/
def pieces (p : Pattern) (text : List Char) : List Piece :=
  p.piecesOfLines 1 (Text.splitAfter (· == '\n') text)

/-! ## Line by line -/

variable {p : Pattern} {start : Position}

/-- A property of lines holds if it is passed on to a line from what is left after its first
piece. -/
theorem line_induction (hp : p.Proper) {motive : List Char → Prop} (nil : motive [])
    (lexeme : ∀ lexeme rest, p.lexeme? (lexeme.text ++ rest) = some lexeme → motive rest →
      motive (lexeme.text ++ rest))
    (malformed : ∀ c rest, p.lexeme? (c :: rest) = none → motive rest → motive (c :: rest))
    (line : List Char) : motive line := by
  induction hn : line.length using Nat.strongRecOn generalizing line with
  | ind n ih =>
    subst hn
    cases hl : p.lexeme? line with
    | some found =>
      have hpos := hp.length_pos hl
      obtain ⟨rest, rfl⟩ := prefix_of_lexeme? hl
      exact lexeme found rest hl (ih rest.length (by rw [List.length_append]; omega) rest rfl)
    | none =>
      cases line with
      | nil => exact nil
      | cons c rest => exact malformed c rest hl (ih rest.length (Nat.lt_succ_self _) rest rfl)

theorem piecesOfLine_nil : p.piecesOfLine start [] = [] := by
  rw [piecesOfLine]

theorem piecesOfLine_of_lexeme (hp : p.Proper) {lexeme : Lexeme} {rest : List Char}
    (h : p.lexeme? (lexeme.text ++ rest) = some lexeme) :
    p.piecesOfLine start (lexeme.text ++ rest) =
      .ofLexeme lexeme start :: p.piecesOfLine (start.right lexeme.text.length) rest := by
  obtain ⟨c, text, htext⟩ := List.exists_cons_of_length_pos (hp.length_pos h)
  rw [htext, List.cons_append] at h ⊢
  rw [piecesOfLine, h]
  simp [htext]

theorem piecesOfLine_of_none {c : Char} {rest : List Char} (h : p.lexeme? (c :: rest) = none) :
    p.piecesOfLine start (c :: rest) = .ofChar c start :: p.piecesOfLine (start.right 1) rest := by
  rw [piecesOfLine, h]

/-! ## What is found -/

variable {piece : Piece}

theorem foundBy_of_mem_piecesOfLine (hp : p.Proper) {line : List Char}
    (h : piece ∈ p.piecesOfLine start line) : piece.FoundBy p := by
  induction line using line_induction hp generalizing start with
  | nil => rw [piecesOfLine_nil] at h; cases h
  | lexeme lexeme rest hfound ih =>
    rw [piecesOfLine_of_lexeme hp hfound] at h
    obtain rfl | h := List.mem_cons.mp h
    · exact .lexeme hfound
    · exact ih h
  | malformed c rest hnone ih =>
    rw [piecesOfLine_of_none hnone] at h
    obtain rfl | h := List.mem_cons.mp h
    · exact .malformed hnone
    · exact ih h

theorem foundBy_of_mem_piecesOfLines (hp : p.Proper) {number : Nat} {lines : List (List Char)}
    (h : piece ∈ p.piecesOfLines number lines) : piece.FoundBy p := by
  induction lines generalizing number with
  | nil => cases h
  | cons line lines ih =>
    rw [piecesOfLines] at h
    obtain h | h := List.mem_append.mp h
    · exact foundBy_of_mem_piecesOfLine hp h
    · exact ih h

/-- Every piece of a text is found somewhere in it. -/
theorem foundBy_of_mem_pieces (hp : p.Proper) {text : List Char} (h : piece ∈ p.pieces text) :
    piece.FoundBy p :=
  foundBy_of_mem_piecesOfLines hp h

/-! ## Nothing is lost -/

theorem chars_piecesOfLine (hp : p.Proper) (line : List Char) (start : Position) :
    Piece.chars (p.piecesOfLine start line) = line := by
  induction line using line_induction hp generalizing start with
  | nil => rw [piecesOfLine_nil]; rfl
  | lexeme lexeme rest h ih =>
    rw [piecesOfLine_of_lexeme hp h, Piece.chars, List.flatMap_cons]
    exact congrArg₂ _ String.toList_ofList (ih _)
  | malformed c rest h ih =>
    rw [piecesOfLine_of_none h, Piece.chars, List.flatMap_cons]
    exact congrArg₂ _ (String.toList_singleton c) (ih _)

theorem chars_piecesOfLines (hp : p.Proper) (number : Nat) (lines : List (List Char)) :
    Piece.chars (p.piecesOfLines number lines) = lines.flatten := by
  induction lines generalizing number with
  | nil => rfl
  | cons line lines ih =>
    rw [piecesOfLines, Piece.chars, List.flatMap_append, List.flatten_cons]
    exact congrArg₂ _ (chars_piecesOfLine hp line ⟨number, 1⟩) (ih (number + 1))

/-- The pieces of a text, put together, are the text. -/
theorem chars_pieces (hp : p.Proper) (text : List Char) : Piece.chars (p.pieces text) = text := by
  rw [pieces, chars_piecesOfLines hp, Text.flatten_splitAfter]

theorem length_piecesOfLine_le (hp : p.Proper) (line : List Char) (start : Position) :
    (p.piecesOfLine start line).length ≤ line.length := by
  induction line using line_induction hp generalizing start with
  | nil => rw [piecesOfLine_nil]; exact Nat.le_refl _
  | lexeme lexeme rest h ih =>
    have hpos := hp.length_pos h
    have hle := ih (start.right lexeme.text.length)
    rw [piecesOfLine_of_lexeme hp h, List.length_cons, List.length_append]
    omega
  | malformed c rest h ih =>
    rw [piecesOfLine_of_none h]
    exact Nat.succ_le_succ (ih (start.right 1))

/-- There are no more pieces than characters. -/
theorem length_pieces_le (hp : p.Proper) (text : List Char) :
    (p.pieces text).length ≤ text.length := by
  have hlines : ∀ (lines : List (List Char)) (number : Nat),
      (p.piecesOfLines number lines).length ≤ lines.flatten.length := by
    intro lines
    induction lines with
    | nil => exact fun _ => Nat.le_refl _
    | cons line lines ih =>
      intro number
      rw [piecesOfLines, List.flatten_cons, List.length_append, List.length_append]
      exact Nat.add_le_add (length_piecesOfLine_le hp line _) (ih _)
  have h := hlines (Text.splitAfter (· == '\n') text) 1
  rwa [Text.flatten_splitAfter] at h

end Pattern

/-! ## Places -/

/-- The place after a text: one more than the number of its line feeds, and one more than the number
of characters after the last of them. -/
def Position.after (text : List Char) : Position :=
  ⟨1 + text.count '\n', 1 + (text.reverse.takeWhile (· != '\n')).length⟩

namespace Position

theorem after_append {text more : List Char} (h : '\n' ∉ more) :
    after (text ++ more) = (after text).right more.length := by
  have hwhile : ∀ c ∈ more.reverse, (c != '\n') = true := by
    intro c hc
    rw [bne_iff_ne]
    rintro rfl
    exact h (List.mem_reverse.mp hc)
  simp only [after, right, List.count_append, List.count_eq_zero_of_not_mem h, List.reverse_append,
    List.takeWhile_append_of_pos hwhile, List.length_append, List.length_reverse]
  congr 1
  omega

theorem after_lineFeed (text : List Char) : after (text ++ ['\n']) = ⟨(after text).line + 1, 1⟩ := by
  simp [after, Nat.add_assoc]

end Position

namespace Piece

/-- Pieces that follow on a text stand at their places, and their ends are as far to the right as they
have characters. -/
def Placed : List Char → List Piece → Prop
  | _, [] => True
  | text, piece :: pieces =>
    piece.start = Position.after text ∧
      piece.stop = piece.start.right piece.text.toList.length ∧
        Placed (text ++ piece.text.toList) pieces

theorem Placed.append {text : List Char} {xs ys : List Piece} (hx : Placed text xs)
    (hy : Placed (text ++ chars xs) ys) : Placed text (xs ++ ys) := by
  induction xs generalizing text with
  | nil => simpa [chars] using hy
  | cons x xs ih =>
    obtain ⟨hstart, hstop, hrest⟩ := hx
    exact ⟨hstart, hstop, ih hrest (by simpa [chars, List.append_assoc] using hy)⟩

/-- So does each of the pieces. -/
theorem Placed.of_mem {text : List Char} {earlier later : List Piece} {piece : Piece}
    (h : Placed text (earlier ++ piece :: later)) :
    piece.start = Position.after (text ++ chars earlier) ∧
      piece.stop = piece.start.right piece.text.toList.length := by
  induction earlier generalizing text with
  | nil =>
    obtain ⟨hstart, hstop, -⟩ := h
    exact ⟨by simpa [chars] using hstart, hstop⟩
  | cons x xs ih =>
    obtain ⟨-, -, hrest⟩ := h
    obtain ⟨hstart, hstop⟩ := ih hrest
    exact ⟨by simpa [chars, List.append_assoc] using hstart, hstop⟩

end Piece

namespace Pattern

variable {p : Pattern}

theorem placed_piecesOfLine (hp : p.Proper) (line : List Char) (hline : '\n' ∉ line.dropLast)
    (text : List Char) : Piece.Placed text (p.piecesOfLine (Position.after text) line) := by
  induction line using line_induction hp generalizing text with
  | nil => rw [piecesOfLine_nil]; trivial
  | lexeme lexeme rest h ih =>
    rw [piecesOfLine_of_lexeme hp h]
    refine ⟨rfl, by simp [Piece.ofLexeme, Piece.stop, Piece.start, Piece.text], ?_⟩
    rw [show (Piece.ofLexeme lexeme _).text.toList = lexeme.text from String.toList_ofList]
    cases rest with
    | nil => rw [piecesOfLine_nil]; trivial
    | cons c rest =>
      rw [List.dropLast_append_cons, List.mem_append, not_or] at hline
      rw [← Position.after_append hline.1]
      exact ih hline.2 _
  | malformed c rest h ih =>
    rw [piecesOfLine_of_none h]
    refine ⟨rfl, by simp [Piece.ofChar, Piece.stop, Piece.start, Piece.text], ?_⟩
    rw [show (Piece.ofChar c _).text.toList = [c] from String.toList_singleton c]
    cases rest with
    | nil => rw [piecesOfLine_nil]; trivial
    | cons c' rest =>
      rw [List.dropLast_cons_cons, List.mem_cons, not_or] at hline
      have hc : '\n' ∉ [c] := by simpa using hline.1
      have hafter : (Position.after text).right 1 = Position.after (text ++ [c]) :=
        (Position.after_append hc).symm
      rw [hafter]
      exact ih hline.2 _

theorem placed_piecesOfLines (hp : p.Proper) {lines : List (List Char)}
    (hlines : Text.Parts (· == '\n') lines) (text : List Char) (number : Nat)
    (h : Position.after text = ⟨number, 1⟩) : Piece.Placed text (p.piecesOfLines number lines) := by
  induction hlines generalizing text number with
  | nil => trivial
  | @last part ne hpart =>
    rw [piecesOfLines, piecesOfLines, List.append_nil, ← h]
    refine placed_piecesOfLine hp part (fun hmem => ?_) text
    simpa using hpart _ ((List.dropLast_sublist part).subset hmem)
  | @cons body c parts hbody hc rest ih =>
    obtain rfl : c = '\n' := by simpa using hc
    have hnot : '\n' ∉ body := fun hmem => by simpa using hbody _ hmem
    rw [piecesOfLines]
    refine Piece.Placed.append ?_ (ih _ _ ?_)
    · rw [← h]
      exact placed_piecesOfLine hp _ (by rw [List.dropLast_concat]; exact hnot) text
    · rw [chars_piecesOfLine hp, ← List.append_assoc, Position.after_lineFeed,
        Position.after_append hnot, h]
      rfl

/-- The pieces of a text stand at their places. -/
theorem placed_pieces (hp : p.Proper) (text : List Char) : Piece.Placed [] (p.pieces text) :=
  placed_piecesOfLines hp (Text.parts_splitAfter _ _) [] 1 rfl

/-- A piece of a text begins at the place after what stands before it. -/
theorem exists_place_of_mem_pieces (hp : p.Proper) {text : List Char} {piece : Piece}
    (h : piece ∈ p.pieces text) : ∃ before rest, text = before ++ (piece.text.toList ++ rest) ∧
      piece.start = Position.after before := by
  obtain ⟨earlier, later, heq⟩ := List.append_of_mem h
  have hplaced := placed_pieces hp text
  have hchars := chars_pieces hp text
  rw [heq] at hplaced hchars
  refine ⟨Piece.chars earlier, Piece.chars later, ?_, hplaced.of_mem.1⟩
  rw [← hchars]
  simp [Piece.chars]

end Pattern

end ListScript
