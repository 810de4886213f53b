import ListScript.Source
import ListScript.Lexeme.Error
import ListScript.Lexeme.Pattern

/-!
# Reading lexemes from a source

* `Reader` : a place in a source, with the lexeme read last;
* `Reader.more` : whether anything is left, reading on when the line at hand is used up;
* `Reader.advance` : moves past the next lexeme, or past one character that begins none;
* `Reader.close` : lets go of the source, after which nothing is left;
* `Reader.size` : how many characters are left at most. `Reader.more` keeps or lowers it
  (`size_of_more`), and moving past a separator lowers it (`size_of_advance`).

A failed read leaves the line and column numbers as they were, also when it handed over characters
before it failed: those are then read as if they stood behind the line before.
-/

namespace ListScript

/-- A place in a source. -/
structure Reader where
  pattern : Pattern
  /-- What is left to read; `none` once closed. -/
  source : Option Source
  /-- What is left of the line at hand. -/
  rest : List Char
  /-- The number of lines read. -/
  line : Nat
  /-- The column of what is left of the line. -/
  column : Nat
  /-- The lexeme read last, `none` before the first and after a malformed character. -/
  last : Option Lexeme
  /-- Where the last lexeme stands that was read at all. -/
  span : Span
  deriving Repr

namespace Reader

/-- A reader at the start of a source. -/
def ofSource (pattern : Pattern) (source : Source) : Reader :=
  { pattern, source := some source, rest := [], line := 0, column := 1, last := none,
    span := Span.origin }

/-- The place of what is read next. -/
def position (r : Reader) : Position := ⟨r.line, r.column⟩

/-- How many characters are left at most. -/
def size (r : Reader) : Nat :=
  r.rest.length + (r.source.map Source.size).getD 0

/-- Whether anything is left to read. A line that is used up is replaced by the next one. -/
def more : EStateM LexemeError Reader Bool := fun r =>
  if !r.rest.isEmpty then .ok true r
  else match r.source with
    | none => .ok false r
    | some source =>
      match source.read with
      | (none, source) => .ok false { r with source := some source }
      | (some (.line text), source) =>
        .ok true
          { r with source := some source, rest := text, line := r.line + 1, column := 1 }
      | (some (.failed kept cause), source) =>
        .error (.unreadable ⟨r.line + 1, 1⟩ cause) { r with source := some source, rest := kept }

/-- Moves past the lexeme with which the line at hand goes on. A character that begins none is
passed over as well, and is the error. -/
def take : EStateM LexemeError Reader Unit := fun r =>
  match r.pattern.lexeme? r.rest with
  | some lexeme =>
    let after := { r with
      rest := r.rest.drop lexeme.text.length
      column := r.column + lexeme.text.length
      last := some lexeme }
    .ok () { after with span := ⟨r.position, after.position⟩ }
  | none =>
    match r.rest with
    | [] => .error .exhausted r
    | c :: rest =>
      .error (.malformed (String.singleton c) r.position)
        { r with rest, column := r.column + 1, last := none }

/-- Moves past the next lexeme. -/
def advance : EStateM LexemeError Reader Unit := do
  if ← more then take else throw .exhausted

/-- Lets go of the source and of what is left of the line. -/
def close (r : Reader) : Reader := { r with source := none, rest := [] }

/-- Whether the source has been let go. -/
def isClosed (r : Reader) : Bool := r.source.isNone

/-! ## The lexeme read last -/

/-- The text of the lexeme read last, empty if there is none. -/
def text (r : Reader) : String :=
  (r.last.map fun lexeme => String.ofList lexeme.text).getD ""

/-- The category of the lexeme read last. -/
def category (r : Reader) : Option Category := r.last.bind Lexeme.category

/-- What the group with the given number holds of the lexeme read last. Group zero is the whole
lexeme; the others are those of the categories. -/
def group? (r : Reader) (number : Nat) : Option String :=
  match r.last, number with
  | none, _ => none
  | some lexeme, 0 => some (String.ofList lexeme.text)
  | some lexeme, n + 1 =>
    if lexeme.category.isSome && lexeme.category == Category.all[n]? then
      some (String.ofList lexeme.text)
    else none

/-! ## What is left -/

/-- Reading on adds nothing to what is left. -/
theorem size_of_more {r s : Reader} {b : Bool} (h : more r = .ok b s) : s.size ≤ r.size := by
  unfold more at h
  split at h
  · cases h; exact Nat.le_refl _
  · next empty =>
    have empty : r.rest = [] := by simpa using empty
    split at h
    · cases h; exact Nat.le_refl _
    · next source hs =>
      rcases hp : source.pending with _ | ⟨reading | ⟨kept, cause⟩, pending⟩
      · simp only [Source.read, hp] at h
        cases hf : source.fault <;> simp only [hf, Option.map_none, Option.map_some] at h <;>
          cases h
        simp [size, hs]
      · simp only [Source.read, hp] at h
        cases h
        simp [size, hs, empty, Source.size, hp, Reading.text]
      · simp only [Source.read, hp] at h
        cases h

/-- Moving past a lexeme that separates others leaves less. -/
theorem size_of_take {r s : Reader} (h : take r = .ok () s) (blank : s.category = some .blank) :
    s.size < r.size := by
  unfold take at h
  split at h
  · next lexeme hl =>
    cases h
    have blank : lexeme.category = some .blank := blank
    have pos := Pattern.length_pos_of_lexeme? hl blank
    have rest : 0 < r.rest.length := by
      rcases hr : r.rest with _ | _
      · rw [hr] at hl; rw [Pattern.category_of_lexeme?_nil hl] at blank; cases blank
      · simp
    simp only [size, List.length_drop]
    omega
  · split at h <;> cases h

/-- Moving past a lexeme that separates others leaves less, also across lines. -/
theorem size_of_advance {r s : Reader} (h : advance r = .ok () s)
    (blank : s.category = some .blank) : s.size < r.size := by
  simp only [advance, bind, EStateM.bind] at h
  split at h
  · next b t hm =>
    cases b
    · cases h
    · exact Nat.lt_of_lt_of_le (size_of_take h blank) (size_of_more hm)
  · cases h

end Reader

end ListScript
