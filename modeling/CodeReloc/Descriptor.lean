import CodeReloc.Stream.Reader

set_option autoImplicit false

/-!
# Code descriptors

A descriptor is what an assembler leaves behind: a buffer with instructions at its start and a
relocation stream at its end, the sizes of the two, and the table that comment records index. Places
in a descriptor are offsets from its first instruction.
-/

namespace CodeReloc

/-- A buffer with instructions and their relocation stream. -/
structure Descriptor where
  buffer : ByteArray
  /-- The bytes of instructions at the start of the buffer. -/
  instructionSize : Nat
  /-- The bytes of the stream at the end of the buffer. -/
  streamSize : Nat
  /-- The comment table. -/
  comments : Array String
  deriving DecidableEq

namespace Descriptor

/-- The instructions, which have to lie inside the buffer. -/
def instructions (d : Descriptor) : Except Fault ByteArray := do
  require (d.instructionSize ≤ d.buffer.size) .breach
  return d.buffer.extract 0 d.instructionSize

/-- The stream, which has to lie inside the buffer. -/
def stream (d : Descriptor) : Except Fault ByteArray := do
  require (d.streamSize ≤ d.buffer.size) .breach
  return d.buffer.extract (d.buffer.size - d.streamSize) d.buffer.size

/-- The records of wanted modes. -/
def walk (d : Descriptor) (mask : Mask) : Walk :=
  match d.stream with
  | .ok stream => walkStream stream 0 mask none
  | .error fault => ⟨#[], some fault⟩

/-- The modes of records that have to be looked at once the code is placed. -/
def movable : Mask :=
  ((Mask.codeTargets.union (.of .embeddedObject)).union (.of .cell)).union .applied

/-- Whether there is a record that has to be looked at once the code is placed. -/
def needsRelocation (d : Descriptor) : Except Fault Bool := do
  let stream ← d.stream
  let reader ← Reader.start stream 0 movable none
  return !reader.done

end Descriptor

end CodeReloc
