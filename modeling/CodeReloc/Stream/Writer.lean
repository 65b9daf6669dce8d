import CodeReloc.Buffer
import CodeReloc.Stream.Encoder

set_option autoImplicit false

/-!
# Writing a stream into a buffer

A stream is laid into a buffer from its end downwards, so that instructions can grow upwards in the
same buffer. A writer is an encoder with the lowest index that it has written. Every byte goes to
the index below, and a byte for which there is no place is a breach.

`encode` writes a list of records into a buffer that is large enough for any list of that length
and cuts off what was not used.
-/

namespace CodeReloc

/-- The most bytes that one record takes: a mode byte and four chunks of a jump or a mode byte, a
pc byte and a pointer, whichever a form combines. -/
def maxRecordSize : Nat := 1 + 4 + 1 + 1 + Wire.pointerSize

/-- Lays bytes into a buffer downwards, beginning below `pos`. Returns the last index used. -/
def place (bytes : List UInt8) (pos : Nat) (buffer : ByteArray) : Except Fault (Nat × ByteArray) :=
  if bytes.isEmpty then
    .ok (pos, buffer)
  else if bytes.length ≤ pos ∧ pos ≤ buffer.size then
    let low := pos - bytes.length
    .ok (low, overlay buffer low bytes.reverse.toByteArray)
  else
    .error .breach

/-- An encoder with its place in a buffer. -/
structure Writer where
  /-- The lowest index written. -/
  pos : Nat
  encoder : Encoder
  deriving DecidableEq, Repr

namespace Writer

/-- A writer of a stream that ends at `stop`. -/
def new (stop : Nat) : Writer := ⟨stop, .start⟩

/-- Goes on at another place, as if the last record had been at `lastPc`. -/
def moveTo (w : Writer) (pos : Nat) (lastPc : UInt64) : Writer :=
  ⟨pos, { w.encoder with lastPc := lastPc }⟩

/-- The bytes written of a stream that ends at `stop`. -/
def size (w : Writer) (stop : Nat) : Except Fault Nat := do
  require (w.pos ≤ stop) .breach
  return stop - w.pos

/-- Writes the position that is held back, if there is one. -/
def finish (w : Writer) (buffer : ByteArray) : Except Fault (Writer × ByteArray) := do
  let (pos, buffer) ← place w.encoder.heldBytes w.pos buffer
  return (⟨pos, w.encoder.release⟩, buffer)

/-- The size that the stream will have after `finish`. A second writer in the same state finishes
in a buffer of its own, which has room for one record. -/
def finalSize (w : Writer) (stop : Nat) : Except Fault Nat := do
  let (probe, _) ← { w with pos := maxRecordSize }.finish (copies maxRecordSize 0)
  let written ← w.size stop
  let total := written + (maxRecordSize - probe.pos)
  require (total < 2 ^ 64) .breach
  return total

/-- Writes a record. A position may be held back instead. -/
def write (w : Writer) (buffer : ByteArray) (r : Record) :
    Except Fault (Writer × ByteArray) := do
  let (w, buffer) ← if r.mode = .position then pure (w, buffer) else w.finish buffer
  let (bytes, encoder) ← w.encoder.add r
  let (pos, buffer) ← place bytes w.pos buffer
  require (bytes.length ≤ maxRecordSize) .breach
  return (⟨pos, encoder⟩, buffer)

/-- Writes records one after the other. -/
def writeAll (w : Writer) (buffer : ByteArray) :
    List Record → Except Fault (Writer × ByteArray)
  | [] => .ok (w, buffer)
  | r :: rs => do
    let (w, buffer) ← w.write buffer r
    w.writeAll buffer rs

end Writer

/-- The bytes of a stream, lowest index first. -/
def encode (records : List Record) : Except Fault ByteArray := do
  let capacity := (records.length + 1) * maxRecordSize
  let (w, buffer) ← (Writer.new capacity).writeAll (copies capacity 0) records
  let (w, buffer) ← w.finish buffer
  return buffer.extract w.pos buffer.size

end CodeReloc
