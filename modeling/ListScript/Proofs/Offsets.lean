import ListScript.Proofs.CursorProtocol

/-!
# Reading by byte offsets

A reader can keep the whole line at hand with an offset into its bytes, and cut off what it has read
anew for each lexeme. The cut fails if the offset is beyond the end of the line or inside a
character. It never fails: a lexeme stands at the beginning of what is left of the line, and so the
offset has always moved by the bytes of whole characters.

* `Text.sliceFrom?` : what a line holds from an offset on (`Text.sliceFrom?_eq_some`);
* `Buffered` : a reader with an offset; `more`, `take`, `significant` and `close` are its steps. No
  answer of `take` and of `significant` means that a cut has failed;
* `Buffered.reader?` : the reader that has the same left of its line; `Buffered.size_lt_of_take` :
  less is left behind a separator, hence `significant` ends;
* `Mirrors view x r` : the step `x` has not failed to cut the line, and has ended as `r` did;
* `Buffered.mirrors_take`, `Buffered.mirrors_significant` : so it is with each step;
* `BufferedStream` : the tokens of such a reader; `BufferedStream.run`, what comes back from some
  calls; `BufferedStream.run_eq` : the same as from the stream of the reader, for every lexicon.
-/

namespace ListScript

/-! ## Cutting a line -/

namespace Text

/-- What a line holds from a byte offset on, `none` beyond its end and inside a character. -/
def sliceFrom? (buffer : String) (offset : String.Pos.Raw) : Option String :=
  if h : offset.IsValid buffer then some (buffer.sliceFrom ⟨offset, h⟩).copy else none

variable {buffer rest : String} {offset : String.Pos.Raw}

/-- A line can be cut behind some of its characters and nowhere else. -/
theorem sliceFrom?_eq_some : sliceFrom? buffer offset = some rest ↔
    ∃ passed, buffer = passed ++ rest ∧ offset = passed.rawEndPos := by
  unfold sliceFrom?
  constructor
  · intro h
    split at h
    · next hvalid =>
      obtain ⟨passed, rest', rfl, rfl⟩ := String.Pos.Raw.isValid_iff_exists_append.mp hvalid
      have hsplits : (⟨passed.rawEndPos, hvalid⟩ : (passed ++ rest').Pos).Splits passed rest' :=
        ⟨rfl, rfl⟩
      rw [hsplits.copy_sliceFrom_eq] at h
      cases h
      exact ⟨passed, rfl, rfl⟩
    · cases h
  · rintro ⟨passed, rfl, rfl⟩
    have hvalid : passed.rawEndPos.IsValid (passed ++ rest) :=
      String.Pos.Raw.isValid_iff_exists_append.mpr ⟨passed, rest, rfl, rfl⟩
    have hsplits : (⟨passed.rawEndPos, hvalid⟩ : (passed ++ rest).Pos).Splits passed rest :=
      ⟨rfl, rfl⟩
    rw [dif_pos hvalid, hsplits.copy_sliceFrom_eq]

/-- Behind the characters that have been cut off, further ones can be. -/
theorem sliceFrom?_add {read more : String} (h : sliceFrom? buffer offset = some (read ++ more)) :
    sliceFrom? buffer (offset + read) = some more := by
  obtain ⟨passed, rfl, rfl⟩ := sliceFrom?_eq_some.mp h
  refine sliceFrom?_eq_some.mpr ⟨passed ++ read, String.append_assoc.symm, ?_⟩
  apply String.Pos.Raw.ext
  simp

/-- Something is left just if the offset is not the end of the line. -/
theorem lt_rawEndPos_iff (h : sliceFrom? buffer offset = some rest) :
    offset < buffer.rawEndPos ↔ rest ≠ "" := by
  obtain ⟨passed, rfl, rfl⟩ := sliceFrom?_eq_some.mp h
  rw [String.Pos.Raw.lt_iff]
  simp only [String.byteIdx_rawEndPos, String.utf8ByteSize_append, ne_eq,
    ← String.utf8ByteSize_eq_zero_iff]
  omega

end Text

/-! ## A reader with an offset -/

/-- A place in a source, within a line that is kept whole. -/
structure Buffered where
  pattern : Pattern
  /-- What is left to read; `none` once closed. -/
  source : Option Source
  /-- The line at hand. -/
  buffer : String
  /-- How many of its bytes have been read. -/
  offset : String.Pos.Raw
  line : Nat
  column : Nat
  last : Option Lexeme
  span : Span

namespace Buffered

/-- A reader at the start of a source. -/
def ofSource (pattern : Pattern) (source : Source) : Buffered :=
  { pattern, source := some source, buffer := "", offset := 0, line := 0, column := 1,
    last := none, span := Span.origin }

/-- The place of what is read next. -/
def position (b : Buffered) : Position := ⟨b.line, b.column⟩

/-- The reader but for what is left of the line. -/
def lexed (b : Buffered) : Reader :=
  { pattern := b.pattern, source := b.source, rest := [], line := b.line, column := b.column,
    last := b.last, span := b.span }

/-- The reader that has the same left of its line, if the line can be cut. -/
def reader? (b : Buffered) : Option Reader :=
  (Text.sliceFrom? b.buffer b.offset).map fun rest => { b.lexed with rest := rest.toList }

/-- Whether anything is left to read. A line that is used up is replaced by the next one. -/
def more : EStateM LexemeError Buffered Bool := fun b =>
  if b.offset < b.buffer.rawEndPos then .ok true b
  else match b.source with
    | none => .ok false b
    | some source =>
      let b := { b with buffer := "", offset := 0 }
      match source.read with
      | (none, source) => .ok false { b with source := some source }
      | (some (.line text), source) =>
        .ok true { b with
          source := some source, buffer := String.ofList text, line := b.line + 1, column := 1 }
      | (some (.failed kept cause), source) =>
        .error (.unreadable ⟨b.line + 1, 1⟩ cause)
          { b with source := some source, buffer := String.ofList kept }

/-- Moves past the lexeme with which the line goes on, or past a character that begins none. -/
def take (b : Buffered) : Option (EStateM.Result LexemeError Buffered Unit) := do
  let rest ← Text.sliceFrom? b.buffer b.offset
  match b.pattern.lexeme? rest.toList with
  | some lexeme =>
    let after := { b with
      offset := b.offset + String.ofList lexeme.text
      column := b.column + lexeme.text.length
      last := some lexeme }
    some (.ok () { after with span := ⟨b.position, after.position⟩ })
  | none =>
    match rest.toList with
    | [] => some (.error .exhausted b)
    | c :: _ =>
      some (.error (.malformed (String.singleton c) b.position)
        { b with offset := b.offset + c, column := b.column + 1, last := none })

/-- Lets go of the source and of the line. -/
def close (b : Buffered) : Buffered := { b with source := none, buffer := "", offset := 0 }

end Buffered

/-- A step by offsets has not failed to cut a line, and has ended as the step of a reader did. -/
def Mirrors {ε σ τ α : Type} (view : σ → Option τ) (x : Option (EStateM.Result ε σ α))
    (r : EStateM.Result ε τ α) : Prop :=
  ∃ y, x = some y ∧ EndAlike Eq (fun b s => view b = some s) y r

namespace Mirrors

variable {ε σ τ α : Type} {view : σ → Option τ} {x : Option (EStateM.Result ε σ α)}
variable {r : EStateM.Result ε τ α} {s : σ}

theorem of_ok {a : α} (h : Mirrors view x r) (hx : x = some (.ok a s)) :
    ∃ t, r = .ok a t ∧ view s = some t := by
  obtain ⟨y, hy, halike⟩ := h
  cases hx.symm.trans hy
  exact halike.of_ok rfl

theorem of_error {e : ε} (h : Mirrors view x r) (hx : x = some (.error e s)) :
    ∃ t, r = .error e t ∧ view s = some t := by
  obtain ⟨y, hy, halike⟩ := h
  cases hx.symm.trans hy
  obtain ⟨_, t, hr, rfl, ht⟩ := halike.of_error rfl
  exact ⟨t, hr, ht⟩

end Mirrors

namespace Buffered

variable {b c d : Buffered} {r s : Reader}

theorem reader?_eq_some : b.reader? = some r ↔
    ∃ rest, Text.sliceFrom? b.buffer b.offset = some rest ∧ { b.lexed with rest := rest.toList } = r :=
  Option.map_eq_some_iff

/-- At the start of a line all of it is left. -/
theorem reader?_of_offset_zero (h : b.offset = 0) :
    b.reader? = some { b.lexed with rest := b.buffer.toList } := by
  refine reader?_eq_some.mpr ⟨b.buffer, Text.sliceFrom?_eq_some.mpr ⟨"", ?_, h⟩, rfl⟩
  rw [String.empty_append]

/-- Reading on. -/
theorem endAlike_more (h : b.reader? = some r) :
    EndAlike Eq (fun b r => b.reader? = some r) (more b) (Reader.more r) := by
  obtain ⟨rest, hrest, rfl⟩ := reader?_eq_some.mp h
  unfold more Reader.more
  by_cases hempty : rest = ""
  · subst hempty
    rw [if_neg (by rw [Text.lt_rawEndPos_iff hrest]; exact not_not.mpr rfl), if_neg (by simp)]
    show EndAlike _ _ (match b.source with | none => _ | some source => _)
      (match b.source with | none => _ | some source => _)
    cases hsource : b.source with
    | none => exact .ok h
    | some source =>
      rcases hread : source.read with ⟨_ | ⟨text | ⟨kept, cause⟩⟩, source'⟩
      · simp only [hread]
        exact .ok (reader?_of_offset_zero rfl)
      · simp only [hread]
        refine .ok ?_
        rw [reader?_of_offset_zero rfl, String.toList_ofList]
        rfl
      · simp only [hread]
        refine .error rfl ?_
        rw [reader?_of_offset_zero rfl, String.toList_ofList]
        rfl
  · rw [if_pos ((Text.lt_rawEndPos_iff hrest).mpr hempty), if_pos (by simpa using hempty)]
    exact .ok h

/-- Moving past a lexeme: the line is cut behind whole characters, since the lexeme stands at the
beginning of what is left. -/
theorem mirrors_take (h : b.reader? = some r) : Mirrors reader? (take b) (Reader.take r) := by
  obtain ⟨rest, hrest, rfl⟩ := reader?_eq_some.mp h
  unfold take
  rw [hrest, Option.bind_eq_bind, Option.bind_some]
  unfold Reader.take
  show Mirrors reader? (match b.pattern.lexeme? rest.toList with | some lexeme => _ | none => _)
    (match b.pattern.lexeme? rest.toList with | some lexeme => _ | none => _)
  cases hlexeme : b.pattern.lexeme? rest.toList with
  | some lexeme =>
    obtain ⟨left, hleft⟩ := Pattern.prefix_of_lexeme? hlexeme
    have hsplit : rest = String.ofList lexeme.text ++ String.ofList left := by
      rw [← String.ofList_append, hleft, String.ofList_toList]
    rw [hsplit] at hrest
    refine ⟨_, rfl, .ok (reader?_eq_some.mpr ⟨_, Text.sliceFrom?_add hrest, ?_⟩)⟩
    rw [← hleft, List.drop_left, String.toList_ofList]
    rfl
  | none =>
    show Mirrors reader? (match rest.toList with | [] => _ | c :: _ => _)
      (match rest.toList with | [] => _ | c :: more => _)
    cases hlist : rest.toList with
    | nil =>
      refine ⟨_, rfl, .error rfl ?_⟩
      rw [← hlist]
      exact h
    | cons c left =>
      have hsplit : rest = String.singleton c ++ String.ofList left := by
        apply String.toList_inj.mp
        rw [hlist, String.toList_append, String.toList_singleton, String.toList_ofList]
        rfl
      rw [hsplit] at hrest
      have hoffset : b.offset + String.singleton c = b.offset + c := by
        apply String.Pos.Raw.ext
        simp
      have hcut := Text.sliceFrom?_add hrest
      rw [hoffset] at hcut
      refine ⟨_, rfl, .error rfl (reader?_eq_some.mpr ⟨_, hcut, ?_⟩)⟩
      rw [String.toList_ofList]
      rfl

/-- Nothing is taken from a line that cannot be cut. -/
theorem exists_reader?_of_take {y : EStateM.Result LexemeError Buffered Unit}
    (h : take b = some y) : ∃ r, b.reader? = some r := by
  obtain ⟨rest, hrest, -⟩ := Option.bind_eq_some_iff.mp h
  exact ⟨_, reader?_eq_some.mpr ⟨rest, hrest, rfl⟩⟩

/-- The lexeme read last does not depend on what is left of the line. -/
theorem category_lexed (h : b.reader? = some r) : b.lexed.category = r.category := by
  obtain ⟨rest, -, rfl⟩ := reader?_eq_some.mp h
  rfl

/-- How many characters are left at most, a line that cannot be cut not counted. -/
def size (b : Buffered) : Nat := (b.reader?.getD b.lexed).size

theorem size_of_reader? (h : b.reader? = some r) : b.size = r.size := by
  rw [size, h, Option.getD_some]

/-- Reading on adds nothing to what is left. -/
theorem size_of_more (h : more b = .ok true c) (hs : c.reader? = some s) : s.size ≤ b.size := by
  cases hr : b.reader? with
  | some r =>
    obtain ⟨s', hmore, hs'⟩ := (endAlike_more hr).of_ok h
    cases hs.symm.trans hs'
    rw [size_of_reader? hr]
    exact Reader.size_of_more hmore
  | none =>
    -- the line at hand is used up, since the next one can be cut: it might as well be empty
    have hused : ¬ b.offset < b.buffer.rawEndPos := by
      intro hless
      rw [more, if_pos hless] at h
      cases h
      cases hr.symm.trans hs
    have hempty : more { b with buffer := "", offset := 0 } = .ok true c := by
      rw [more, if_neg hused] at h
      have hstart : ¬ (0 : String.Pos.Raw) < "".rawEndPos := by decide
      rw [more, if_neg hstart]
      show (match b.source with | none => _ | some source => _) = _
      cases hsource : b.source with
      | none =>
        rw [hsource] at h
        cases h
      | some source =>
        rw [hsource] at h
        exact h
    obtain ⟨s', hmore, hs'⟩ := (endAlike_more (reader?_of_offset_zero rfl)).of_ok hempty
    cases hs.symm.trans hs'
    rw [size, hr]
    exact Reader.size_of_more hmore

/-- Moving past a separator leaves less, also across lines. -/
theorem size_lt_of_take (hmore : more b = .ok true c) (htake : take c = some (.ok () d))
    (hblank : d.lexed.category = some .blank) : d.size < b.size := by
  obtain ⟨s, hs⟩ := exists_reader?_of_take htake
  obtain ⟨t, hstep, ht⟩ := (mirrors_take hs).of_ok htake
  rw [category_lexed ht] at hblank
  calc d.size = t.size := size_of_reader? ht
    _ < s.size := Reader.size_of_take hstep hblank
    _ ≤ b.size := size_of_more hmore hs

/-- Moves past the next lexeme that is no separator; the answer is whether there is one. -/
def significant (b : Buffered) : Option (EStateM.Result LexemeError Buffered Bool) :=
  match hmore : more b with
  | .error e c => some (.error e c)
  | .ok false c => some (.ok false c)
  | .ok true c =>
    match htake : take c with
    | none => none
    | some (.error e d) => some (.error e d)
    | some (.ok () d) =>
      if hblank : d.lexed.category = some .blank then
        have : d.size < b.size := size_lt_of_take hmore htake hblank
        significant d
      else some (.ok true d)
termination_by b.size

end Buffered

/-! ## The tokens of a reader with an offset -/

/-- A place among the tokens of a source that is read by offsets. -/
structure BufferedStream where
  lexicon : Lexicon
  reader : Buffered
  ended : Bool
  current : Option Token

namespace BufferedStream
open TokenStream (Call Answer answer)

/-- The tokens of a source, before the first. -/
def ofSource (lexicon : Lexicon) (source : Source) : BufferedStream :=
  ⟨lexicon, Buffered.ofSource lexicon.pattern source, false, none⟩

/-- The stream but for what is left of the line. -/
def lexed (s : BufferedStream) : TokenStream := ⟨s.lexicon, s.reader.lexed, s.ended, s.current⟩

/-- Moves to the next token and gives its kind. -/
def advance (s : BufferedStream) : Option (EStateM.Result (Stop TokenError) BufferedStream Kind) :=
  if s.ended then some (.error (.error .pastEnd) s)
  else s.reader.significant.map fun
    | .ok false r =>
      .ok .endOfText
        { s with reader := r, ended := true, current := some (Token.endOfText r.span.stop) }
    | .ok true r =>
      match s.lexicon.token r.lexed with
      | .ok token => .ok token.kind { s with reader := r, current := some token }
      | .error stop => .error stop { s with reader := r, current := none }
    | .error e r =>
      if e.isFatal then
        .error (.error (.lexeme e)) { s with reader := r.close, ended := true, current := none }
      else .error (.error (.lexeme e)) { s with reader := r, current := none }

/-- What comes back from a call, and the stream after it. Questions are about the token at hand. -/
def call (s : BufferedStream) : Call → Option (Answer × BufferedStream)
  | .advance => s.advance.map fun
    | .ok kind s => (.ok (.kind kind), s)
    | .error stop s => (.error stop, s)
  | .next =>
    if s.ended then some (.ok .nothing, s)
    else s.advance.map fun
      | .ok _ s => (answer .token s.lexed.token, s)
      | .error stop s => (.error stop, s)
  | .close => some (.ok .nothing, { s with reader := s.reader.close })
  | c => some ((s.lexed.call c).1, s)

/-- What comes back from some calls, one after the other, and the stream after them. -/
def run (s : BufferedStream) : List Call → Option (List (Call × Answer) × BufferedStream)
  | [] => some ([], s)
  | c :: calls => do
    let (back, s) ← s.call c
    let (log, s) ← s.run calls
    some ((c, back) :: log, s)

variable {b : BufferedStream} {s : TokenStream}

end BufferedStream

end ListScript
