import ListScript.Text.Lines

/-!
# Where a program text comes from

A source is read a line at a time, and what it holds is the list of answers that its reads will
give:

* `Reading` : the answer of one read, a line or a failure;
* `Source` : the readings still to come, and the fault that every later read meets (`none`: the
  text just ends);
* `Source.read` : the next answer and the source after it;
* `Source.ofText`, `Source.ofBytes` : the source of a text, and of bytes that may be no text and
  may break off with a fault.
-/

namespace ListScript

/-- The answer of one read. -/
inductive Reading where
  /-- A line, with its line feed if it has one. -/
  | line (text : List Char)
  /-- The read failed for the reason `cause`, after `kept` had been read. -/
  | failed (kept : List Char) (cause : String)
  deriving DecidableEq, Repr, Inhabited

/-- The characters that a read hands over. -/
def Reading.text : Reading → List Char
  | .line text => text
  | .failed kept _ => kept

/-- What is left to read. -/
structure Source where
  pending : List Reading
  /-- Why reading on fails once the readings are used up; `none` where the text ends. -/
  fault : Option String
  deriving DecidableEq, Repr, Inhabited

namespace Source

/-- A source that has ended. -/
def ended : Source := ⟨[], none⟩

/-- The next answer, `none` at the end, and what is left after it. -/
def read (s : Source) : Option Reading × Source :=
  match s.pending with
  | reading :: rest => (some reading, { s with pending := rest })
  | [] => (s.fault.map (Reading.failed []), s)

/-- How many characters a source can still hand over. -/
def size (s : Source) : Nat :=
  (s.pending.flatMap Reading.text).length

/-- The source of a text: its lines, each with its line feed, and then the end. -/
def ofChars (text : List Char) : Source :=
  ⟨(Text.splitAfter (· == '\n') text).map Reading.line, none⟩

/-- The source of a text. -/
def ofText (text : String) : Source := ofChars text.toList

/-- The text that some bytes encode, if they encode one. -/
def decode (bytes : List UInt8) : Option (List Char) :=
  (ByteArray.mk bytes.toArray).utf8Decode?.map Array.toList

/-- Why a read of bytes that encode no text fails. -/
def notText : String := "stream did not contain valid UTF-8"

/-- A read of a part that the source delivered whole. Bytes that encode no text are lost. -/
def readingOfLine (part : List UInt8) : Reading :=
  match decode part with
  | some text => .line text
  | none => .failed [] notText

/-- A read that `cause` broke off after `part`. What was read is kept if it encodes a text. -/
def readingOfBreak (part : List UInt8) (cause : String) : Reading :=
  .failed ((decode part).getD []) cause

/-- The byte that ends a line. -/
def isLineFeed (byte : UInt8) : Bool := byte == 10

/-- The reading of one part of a source that ends with the given fault. Only the last part can lack
its line feed, and with a fault it is then broken off. -/
def readingOf (fault : Option String) (part : List UInt8) : Reading :=
  match fault with
  | none => readingOfLine part
  | some cause => if part.any isLineFeed then readingOfLine part else readingOfBreak part cause

/-- The source of some bytes. With a fault, reading fails once the bytes are used up. -/
def ofBytes (bytes : List UInt8) (fault : Option String) : Source :=
  ⟨(Text.splitAfter isLineFeed bytes).map (readingOf fault), fault⟩

end Source

end ListScript
