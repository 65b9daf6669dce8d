import CodeReloc.Assembler.Arena
import CodeReloc.Descriptor

set_option autoImplicit false

/-!
# Assembling code

The operations of an assembler lay instruction bytes into its buffer and record what lies where.
Every operation first makes sure that there is room. When the buffer cannot be made large enough the
operation answers `LimitExceeded`, and what it had done up to then stays done: the buffer may have
grown, a comment may be in the table, part of a sequence of bytes or records may be in place.

`complete` ends the work and cuts the buffer up into a descriptor.
-/

namespace CodeReloc

/-- A computation on an assembler. A fault ends everything; an exceeded limit leaves the assembler
as it then is. -/
abbrev Assembly := ExceptT LimitExceeded (StateT Assembler (Except Fault))

namespace Assembler

/-! ## Room -/

/-- Makes the buffer large enough for `n` more bytes and the gap. -/
def makeRoom (n : Nat) : Assembly Unit := do
  let a ← get
  let space ← a.space
  let streamSize ← a.streamSize
  if space < n + gap then
    let (size, exceeded) := grownSize a.options.maxSize (a.pc + streamSize + n + gap) a.buffer.size
    if size ≠ a.buffer.size then
      set (a.resize streamSize size)
    if let some e := exceeded then
      throw e

/-- Makes sure that the gap is free. -/
def keepGap : Assembly Unit := makeRoom 0

/-! ## Instructions -/

/-- Lays bytes at the end of the instructions, where there is room for them. -/
def appendBytes (bytes : ByteArray) : Assembly Unit :=
  fun ⟨options, buffer, pc, writer, comments, positions⟩ => do
    require (pc + bytes.size ≤ buffer.size) .breach
    return (.ok (),
      ⟨options, overlay buffer pc bytes, pc + bytes.size, writer, comments, positions⟩)

/-- Emits bytes. -/
def emit (bytes : ByteArray) : Assembly Unit := do
  makeRoom bytes.size
  appendBytes bytes

/-- Emits one byte. -/
def emitByte (value : UInt8) : Assembly Unit := emit [value].toByteArray

/-- Emits a 32-bit word. -/
def emitWord32 (value : UInt32) : Assembly Unit := emit (leBytes 4 value.toNat).toByteArray

/-- Emits a 64-bit word. -/
def emitWord64 (value : UInt64) : Assembly Unit := emit (leBytes 8 value.toNat).toByteArray

/-- Emits zero bytes, one by one. -/
def emitZeros : Nat → Assembly Unit
  | 0 => pure ()
  | n + 1 => do
    emitByte 0
    emitZeros n

/-- Emits zero bytes up to the next multiple of `m`, which has to be a power of two and at
least 2. -/
def align (m : Nat) : Assembly Unit := do
  require (2 ≤ m && m.isPowerOfTwo) .breach
  let a ← get
  emitZeros ((m - a.pc % m) % m)

/-- Lays bytes over instructions that have been emitted. What lies beyond the instructions is
dropped. -/
def overwrite (offset : Nat) (bytes : ByteArray) (a : Assembler) : Assembler :=
  { a with buffer := overlay a.buffer offset (bytes.extract 0 (a.pc - offset)) }

/-! ## Records -/

/-- Writes a record at the end of the instructions, where there is room for it. -/
def appendRecord (mode : Mode) (data : Int64) : Assembly Unit :=
  fun ⟨options, buffer, pc, writer, comments, positions⟩ => do
    let (writer, buffer) ← writer.write buffer ⟨UInt64.ofNat pc, mode, data⟩
    return (.ok (), ⟨options, buffer, pc, writer, comments, positions⟩)

/-- Records what lies at the end of the instructions. A marker for "nothing to relocate" is not
recorded. -/
def record (mode : Mode) (data : Int64) : Assembly Unit := do
  if !mode.isNone then
    keepGap
    appendRecord mode data

/-- Adds a text to the comment table. Answers its index. -/
def addComment (text : String) : Assembly Nat :=
  modifyGet fun a => (a.comments.size, { a with comments := a.comments.push text })

/-- Records a comment, if comments are recorded. -/
def comment (text : String) : Assembly Unit := do
  let a ← get
  if a.options.comments then
    let index ← addComment text
    record .comment (Int64.ofNat index)

/-- Records why the code that follows gives up on its assumptions, if that is recorded. An unknown
position is recorded as 0. -/
def deoptReason (reason : UInt8) (position : Int32) : Assembly Unit := do
  let a ← get
  if a.options.deoptReasons then
    record .position (if position = noPosition then 0 else position.toInt64)
    record .deoptReason (Int64.ofNat reason.toNat)

/-- Records a place where a generator goes on. -/
def generatorContinuation : Assembly Unit := record .generatorContinuation 0

/-- Records a debug break slot. -/
def debugBreakSlot (mode : Mode) (arguments : Int32) : Assembly Unit := do
  require mode.isDebugBreakSlot .breach
  record mode arguments.toInt64

/-- Records the start of a constant pool of a given size. -/
def constPool (size : Int32) : Assembly Unit := record .constPool size.toInt64

/-- Records the start of a veneer pool of a given size. -/
def veneerPool (size : Int32) : Assembly Unit := record .veneerPool size.toInt64

/-- Records and emits an address outside the code. -/
def externalReference (address : UInt64) : Assembly Unit := do
  record .externalReference 0
  emitWord64 address

/-! ## Positions -/

/-- Announces a position. -/
def announce (position : Int32) : Assembly Unit := do
  let a ← get
  let positions ← a.positions.announce position
  set { a with positions := positions }

/-- Announces a statement position. -/
def announceStatement (position : Int32) : Assembly Unit := do
  let a ← get
  let positions ← a.positions.announceStatement position
  set { a with positions := positions }

/-- Records positions in order. -/
def recordPositions : List (Mode × Int32) → Assembly Unit
  | [] => pure ()
  | (mode, position) :: rest => do
    record mode position.toInt64
    recordPositions rest

/-- Records the positions that have changed. Answers whether there were any. -/
def writePositions : Assembly Bool := do
  let a ← get
  let (missing, positions) := a.positions.takeMissing
  set { a with positions := positions }
  recordPositions missing
  return !missing.isEmpty

/-! ## The finished code -/

/-- Writes what is held back. -/
def finishStream : Assembly Unit :=
  fun ⟨options, buffer, pc, writer, comments, positions⟩ => do
    let (writer, buffer) ← writer.finish buffer
    return (.ok (), ⟨options, buffer, pc, writer, comments, positions⟩)

/-- Ends the work. -/
def complete : Assembly Descriptor := do
  let _ ← writePositions
  keepGap
  finishStream
  let a ← get
  let streamSize ← a.streamSize
  return ⟨a.buffer, a.pc, streamSize, a.comments⟩

end Assembler

end CodeReloc
