import ListScript.Proofs.Pieces

/-!
# A reader finds the pieces of its text

* `Reader.Run r pieces s` : asked for lexemes as long as there is more, reader `r` gives `pieces` and
  is `s` in the end (`Reader.Run.unique`);
* `Reader.past`, `Reader.pastChar`, `Reader.onLine` : the reader after a single step;
* `Reader.Finds r pieces` : `pieces` are left for `r` (`Reader.finds_line`, `Reader.finds_lines`,
  `Reader.finds_ofText`), so that it gives them (`Reader.Finds.run`).
-/

namespace ListScript.Reader

/-- What a reader gives as long as there is more. -/
inductive Run : Reader → List Piece → Reader → Prop
  | stop {r s : Reader} (more : r.more = .ok false s) : Run r [] s
  | lexeme {r s t u : Reader} {pieces : List Piece} (more : r.more = .ok true s)
    (next : s.advance = .ok () t) (rest : Run t pieces u) :
    Run r (.lexeme t.text t.category t.span :: pieces) u
  | malformed {r s t u : Reader} {pieces : List Piece} {text : String} {position : Position}
    (more : r.more = .ok true s) (next : s.advance = .error (.malformed text position) t)
    (rest : Run t pieces u) : Run r (.malformed text position :: pieces) u

/-- A reader gives the same whenever it is asked. -/
theorem Run.unique {r s s' : Reader} {pieces pieces' : List Piece} (h : Run r pieces s)
    (h' : Run r pieces' s') : pieces = pieces' ∧ s = s' := by
  induction h generalizing pieces' s' with
  | stop more =>
    cases h' with
    | stop more' => cases more.symm.trans more'; exact ⟨rfl, rfl⟩
    | lexeme more' | malformed more' => cases more.symm.trans more'
  | lexeme more next _ ih =>
    cases h' with
    | stop more' => cases more.symm.trans more'
    | lexeme more' next' rest' =>
      cases more.symm.trans more'
      cases next.symm.trans next'
      obtain ⟨rfl, rfl⟩ := ih rest'
      exact ⟨rfl, rfl⟩
    | malformed more' next' =>
      cases more.symm.trans more'
      cases next.symm.trans next'
  | malformed more next _ ih =>
    cases h' with
    | stop more' => cases more.symm.trans more'
    | lexeme more' next' =>
      cases more.symm.trans more'
      cases next.symm.trans next'
    | malformed more' next' rest' =>
      cases more.symm.trans more'
      cases next.symm.trans next'
      obtain ⟨rfl, rfl⟩ := ih rest'
      exact ⟨rfl, rfl⟩

variable {r s u : Reader} {p : Pattern} {pieces : List Piece}

/-! ## Single steps -/

theorem more_of_rest (h : r.rest ≠ []) : more r = .ok true r := by
  simp [more, h]

theorem advance_of_rest (h : r.rest ≠ []) : advance r = take r := by
  change EStateM.bind more _ r = _
  simp only [EStateM.bind, more_of_rest h]
  rfl

/-- The reader at the start of the next line. -/
def onLine (r : Reader) (line : List Char) (lines : List Reading) : Reader :=
  { r with source := some ⟨lines, none⟩, rest := line, line := r.line + 1, column := 1 }

/-- The next line is read once the line at hand is used up. -/
theorem more_of_line {line : List Char} {lines : List Reading} (hrest : r.rest = [])
    (hsource : r.source = some ⟨.line line :: lines, none⟩) :
    more r = .ok true (r.onLine line lines) := by
  simp [more, hrest, hsource, Source.read, onLine]

theorem more_of_end (hrest : r.rest = []) (hsource : r.source = some ⟨[], none⟩) :
    more r = .ok false r := by
  have hread : Source.read ⟨[], none⟩ = (none, ⟨[], none⟩) := rfl
  simp only [more, hrest, List.isEmpty_nil, Bool.not_true, Bool.false_eq_true, if_false, hsource,
    hread]
  rw [← hrest, ← hsource]

/-- The reader after a lexeme. -/
def past (r : Reader) (lexeme : Lexeme) (rest : List Char) : Reader :=
  { r with
    rest, column := r.column + lexeme.text.length, last := some lexeme,
    span := ⟨r.position, r.position.right lexeme.text.length⟩ }

/-- The reader after a malformed character. -/
def pastChar (r : Reader) (rest : List Char) : Reader :=
  { r with rest, column := r.column + 1, last := none }

theorem take_of_lexeme {lexeme : Lexeme} {rest : List Char} (hrest : r.rest = lexeme.text ++ rest)
    (h : r.pattern.lexeme? (lexeme.text ++ rest) = some lexeme) :
    take r = .ok () (r.past lexeme rest) := by
  simp only [take, hrest, h, List.drop_left]
  rfl

theorem take_of_none {c : Char} {rest : List Char} (hrest : r.rest = c :: rest)
    (h : r.pattern.lexeme? (c :: rest) = none) :
    take r = .error (.malformed (String.singleton c) r.position) (r.pastChar rest) := by
  simp only [take, hrest, h]
  rfl

/-- Asking twice whether there is more does not change what is found. -/
theorem Run.of_more (hmore : more r = .ok true s) (hrest : s.rest ≠ []) (h : Run s pieces u) :
    Run r pieces u := by
  cases h with
  | stop more' => cases (more_of_rest hrest).symm.trans more'
  | lexeme more' next rest =>
    cases (more_of_rest hrest).symm.trans more'
    exact .lexeme hmore next rest
  | malformed more' next rest =>
    cases (more_of_rest hrest).symm.trans more'
    exact .malformed hmore next rest

/-! ## Finding the pieces of a text -/

/-- What is left for a reader of a text, piece by piece: lexemes and malformed characters of the line
at hand, and the next line once that is used up. -/
inductive Finds : Reader → List Piece → Prop
  | stop {r : Reader} (rest : r.rest = []) (source : r.source = some ⟨[], none⟩) : Finds r []
  | line {r : Reader} {line : List Char} {lines : List Reading} {pieces : List Piece}
    (rest : r.rest = []) (source : r.source = some ⟨.line line :: lines, none⟩) (ne : line ≠ [])
    (later : Finds (r.onLine line lines) pieces) : Finds r pieces
  | lexeme {r : Reader} {lexeme : Lexeme} {rest : List Char} {pieces : List Piece}
    (line : r.rest = lexeme.text ++ rest) (ne : lexeme.text ≠ [])
    (found : r.pattern.lexeme? (lexeme.text ++ rest) = some lexeme)
    (later : Finds (r.past lexeme rest) pieces) : Finds r (.ofLexeme lexeme r.position :: pieces)
  | malformed {r : Reader} {c : Char} {rest : List Char} {pieces : List Piece}
    (line : r.rest = c :: rest) (none : r.pattern.lexeme? (c :: rest) = none)
    (later : Finds (r.pastChar rest) pieces) : Finds r (.ofChar c r.position :: pieces)

/-- The pieces of the rest of the line are left, and then what is left once that is used up. -/
theorem finds_line (hp : p.Proper) (line : List Char) {later : List Piece} (r : Reader)
    (hpattern : r.pattern = p) (hline : r.rest = line)
    (hlater : ∀ r', r'.pattern = p → r'.source = r.source → r'.line = r.line → r'.rest = [] →
      Finds r' later) : Finds r (p.piecesOfLine r.position line ++ later) := by
  induction line using Pattern.line_induction hp generalizing r with
  | nil =>
    rw [Pattern.piecesOfLine_nil]
    exact hlater r hpattern rfl rfl hline
  | lexeme lexeme rest h ih =>
    rw [Pattern.piecesOfLine_of_lexeme hp h]
    exact .lexeme hline (List.length_pos_iff.mp (hp.length_pos h)) (by rw [hpattern]; exact h)
      (ih (r.past lexeme rest) hpattern rfl hlater)
  | malformed c rest h ih =>
    rw [Pattern.piecesOfLine_of_none h]
    exact .malformed hline (by rw [hpattern]; exact h) (ih (r.pastChar rest) hpattern rfl hlater)

/-- The pieces of the rest of the line are left, and those of the lines after it. -/
theorem finds_lines (hp : p.Proper) (lines : List (List Char)) (hlines : ∀ line ∈ lines, line ≠ [])
    (r : Reader) (hpattern : r.pattern = p) (hsource : r.source = some ⟨lines.map .line, none⟩) :
    Finds r (p.piecesOfLine r.position r.rest ++ p.piecesOfLines (r.line + 1) lines) := by
  induction lines generalizing r with
  | nil =>
    exact finds_line hp r.rest r hpattern rfl fun r' _ hsource' _ hrest' =>
      .stop hrest' (hsource'.trans hsource)
  | cons line lines ih =>
    refine finds_line hp r.rest r hpattern rfl fun r' hpattern' hsource' hnumber hrest' => ?_
    have hlater := ih (fun l hl => hlines l (List.mem_cons_of_mem _ hl))
      (r'.onLine line (lines.map .line)) hpattern' rfl
    rw [Pattern.piecesOfLines, ← hnumber]
    exact .line hrest' (hsource'.trans hsource) (hlines line List.mem_cons_self) hlater

/-- The pieces of a text are left for a reader at its start. -/
theorem finds_ofText (hp : p.Proper) (text : String) :
    Finds (ofSource p (Source.ofText text)) (p.pieces text.toList) := by
  have h := finds_lines hp _ (Text.ne_nil_of_mem_splitAfter (· == '\n') text.toList)
    (ofSource p (Source.ofText text)) rfl rfl
  rwa [show (ofSource p (Source.ofText text)).rest = [] from rfl, Pattern.piecesOfLine_nil] at h

/-- A reader gives what is left for it. -/
theorem Finds.run (h : Finds r pieces) : ∃ s, Run r pieces s := by
  induction h with
  | stop hrest hsource => exact ⟨_, .stop (more_of_end hrest hsource)⟩
  | line hrest hsource hne _ ih =>
    obtain ⟨s, hs⟩ := ih
    exact ⟨s, .of_more (more_of_line hrest hsource) hne hs⟩
  | @lexeme r lexeme rest pieces hline hne hfound _ ih =>
    obtain ⟨s, hs⟩ := ih
    have hrest : r.rest ≠ [] := by
      rw [hline]
      exact List.append_ne_nil_of_left_ne_nil hne _
    have hnext : advance r = .ok () (r.past lexeme rest) :=
      (advance_of_rest hrest).trans (take_of_lexeme hline hfound)
    exact ⟨s, .lexeme (more_of_rest hrest) hnext hs⟩
  | @malformed r c rest pieces hline hnone _ ih =>
    obtain ⟨s, hs⟩ := ih
    have hrest : r.rest ≠ [] := by
      rw [hline]
      exact List.cons_ne_nil _ _
    have hnext : advance r = .error (.malformed (String.singleton c) r.position)
        (r.pastChar rest) := (advance_of_rest hrest).trans (take_of_none hline hnone)
    exact ⟨s, .malformed (more_of_rest hrest) hnext hs⟩

end ListScript.Reader
