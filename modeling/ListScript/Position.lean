/-!
# Places in a program text

* `Position` : a line and a column, both counted from one, columns in characters;
  `Position.origin` (`0:0`) stands before anything has been read;
* `Span` : the start and the end of a stretch of text, the end not included;
* `Position.toString` : the form `line:column` in which every message gives a place.
-/

namespace ListScript

/-- A line and a column of a text. -/
structure Position where
  line : Nat
  column : Nat
  deriving DecidableEq, Repr, Inhabited

namespace Position

/-- The place before the first line. -/
def origin : Position := ⟨0, 0⟩

/-- A place is written as its line, a colon and its column. -/
protected def toString (p : Position) : String := s!"{p.line}:{p.column}"

instance : ToString Position := ⟨Position.toString⟩

/-- The place `n` characters further on the same line. -/
def right (p : Position) (n : Nat) : Position := ⟨p.line, p.column + n⟩

end Position

/-- A stretch of text, from `start` up to and without `stop`. -/
structure Span where
  start : Position
  stop : Position
  deriving DecidableEq, Repr, Inhabited

namespace Span

/-- The span before the first line. -/
def origin : Span := ⟨Position.origin, Position.origin⟩

/-- The empty span at `p`. -/
def empty (p : Position) : Span := ⟨p, p⟩

end Span

end ListScript
