/-!
# Where output goes

* `Writer` : what a running program may write to, with answers of its own to what is written;
  `Writer.write` writes the bytes of a text;
* `Sink` : the bytes taken so far, the room for more, and whether flushing fails;
* `Sink.take` : takes some bytes. A sink without room for all of them takes those that fit and
  fails;
* `Sink.flush` : makes sure that what was taken stays.
-/

namespace ListScript

/-- What a running program may write to. -/
class Writer (σ : Type) where
  /-- Takes some bytes, or fails for a reason. -/
  take : List UInt8 → EStateM String σ Unit
  /-- Makes sure that what was taken stays. -/
  flush : EStateM String σ Unit

/-- Writes the bytes of a text. -/
def Writer.write {σ : Type} [Writer σ] (text : String) : EStateM String σ Unit :=
  Writer.take text.toUTF8.toList

/-- A taker of bytes. -/
structure Sink where
  written : Array UInt8
  /-- How many more bytes are taken, any number if `none`. -/
  room : Option Nat
  /-- Whether flushing fails. -/
  flushFails : Bool
  deriving DecidableEq, Repr, Inhabited

namespace Sink

/-- A sink that takes everything. -/
def unlimited : Sink := ⟨#[], none, false⟩

/-- Why a write fails for which there is no room. -/
def full : String := "disk full"

/-- Why flushing fails. -/
def unflushed : String := "flush failed"

/-- Takes some bytes, or as many of them as fit. -/
def take (bytes : List UInt8) : EStateM String Sink Unit := fun s =>
  match s.room with
  | none => .ok () { s with written := s.written ++ bytes }
  | some room =>
    let after :=
      { s with written := s.written ++ bytes.take room, room := some (room - bytes.length) }
    if bytes.length ≤ room then .ok () after else .error full after

/-- Makes sure that what was taken stays. -/
def flush : EStateM String Sink Unit := fun s =>
  if s.flushFails then .error unflushed s else .ok () s

instance : Writer Sink := ⟨take, flush⟩

/-- What was taken, as a text. -/
def text (s : Sink) : String := (String.fromUTF8? ⟨s.written⟩).getD ""

end Sink

end ListScript
