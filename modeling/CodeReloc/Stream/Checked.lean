import CodeReloc.Stream.Writer

set_option autoImplicit false

/-!
# Forms with their checks

While the bytes of a record are put down they are checked once more. The rest of a distance has to
fit the six bits beside a tag, the code of a mode the six bits of a mode byte, and a jump has to
have a digit. `Checked` has the forms with these checks.

A jump is laid down digit by digit until none is left, and only then is the chunk that came last
marked as the last one (`layJump`).
-/

namespace CodeReloc

open Wire

namespace Checked

/-- The jump in front of a record, and the rest of the distance, which is left to the record. -/
def jump (distance : Nat) : Except Fault (List UInt8 × Nat) := do
  if ← testUnsigned (Int64.ofNat distance) smallPcBits then
    return ([], distance)
  else
    let mode ← longModeByte Mode.pcJump.code
    require (0 < distance / 64) .breach
    return (mode :: jumpChunks (distance / 64), distance % 64)

/-- A jump if one is needed, and a first byte with a tag and the rest of the distance. -/
def shortForm (distance : Nat) (tag : Tag) : Except Fault (List UInt8) := do
  let (jump, rest) ← jump distance
  let first ← shortPcByte rest tag
  return jump ++ [first]

/-- A short form with a data byte. -/
def locatableForm (distance : Nat) (kind : ShortKind) (data : Int32) :
    Except Fault (List UInt8) := do
  let short ← shortForm distance .locatable
  return short ++ [shortDataByte data kind]

/-- A jump if one is needed, a mode byte and a pc byte with the rest of the distance. -/
def longForm (distance : Nat) (mode : Mode) : Except Fault (List UInt8) := do
  let (jump, rest) ← jump distance
  let first ← longModeByte mode.code
  return jump ++ [first, UInt8.ofNat rest]

/-- A difference in the shorter of its two forms. -/
def deltaForm (distance : Nat) (mode : Mode) (kind : ShortKind) (delta : Int32) :
    Except Fault (List UInt8) := do
  if ← testSigned delta.toInt64 shortDataBits then
    locatableForm distance kind delta
  else
    let long ← longForm distance mode
    return long ++ intBytes delta

end Checked

/-! ## A jump in a buffer -/

/-- Lays down the digits of a number, lowest first, until none is left. No chunk is marked. -/
def layChunks (n pos : Nat) (buffer : ByteArray) : Except Fault (Nat × ByteArray) :=
  if n = 0 then
    .ok (pos, buffer)
  else do
    let (pos, buffer) ← place [chunk n] pos buffer
    layChunks (n / 128) pos buffer
termination_by n

/-- Marks the chunk at an index as a last one. -/
def markLast (pos : Nat) (buffer : ByteArray) : Except Fault ByteArray :=
  if h : pos < buffer.size then
    .ok (overlay buffer pos [buffer[pos] ||| UInt8.ofNat lastChunkMark].toByteArray)
  else
    .error .breach

/-- Lays down the jump for a distance, if it needs one. Answers what is left of the distance. -/
def layJump (distance pos : Nat) (buffer : ByteArray) :
    Except Fault (Nat × Nat × ByteArray) := do
  if ← testUnsigned (Int64.ofNat distance) smallPcBits then
    return (distance, pos, buffer)
  else
    let mode ← longModeByte Mode.pcJump.code
    let (pos, buffer) ← place [mode] pos buffer
    require (0 < distance / 64) .breach
    let (pos, buffer) ← layChunks (distance / 64) pos buffer
    let buffer ← markLast pos buffer
    return (distance % 64, pos, buffer)

end CodeReloc
