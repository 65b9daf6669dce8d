import CodeReloc.Descriptor

set_option autoImplicit false

/-!
# Code in its place

Code is what remains of a descriptor once it has been put at an address: its instructions, its
relocation stream and its comment table, without the free bytes between them. Places in it are
addresses.

Code may carry an age sequence, a few instructions at a given offset. While the code is young the
sequence holds nothing that has to be adjusted; once the code is old it does, and a walk reports it
as one more record after those of the stream.
-/

namespace CodeReloc

/-- Instructions between two addresses. -/
structure Region where
  start : UInt64
  /-- The address after the last instruction. -/
  stop : UInt64
  deriving DecidableEq, Repr

/-- Whether an address lies in a region or at its end. -/
def Region.reaches (r : Region) (address : UInt64) : Bool :=
  r.start ≤ address && address ≤ r.stop

/-- The age sequence of code. -/
structure CodeAge where
  /-- Where the sequence lies, from the first instruction on. -/
  offset : Nat
  young : Bool
  deriving DecidableEq, Repr

/-- Code at an address. -/
structure Code where
  /-- The address of the first instruction. -/
  base : UInt64
  instructions : ByteArray
  stream : ByteArray
  comments : Array String
  age : Option CodeAge
  deriving DecidableEq

namespace Code

/-- Puts the code of a descriptor at an address. -/
def ofDescriptor (d : Descriptor) (base : UInt64) : Except Fault Code := do
  let instructions ← d.instructions
  let stream ← d.stream
  return ⟨base, instructions, stream, d.comments, none⟩

/-- Gives the code an age sequence, which has to begin inside the instructions. -/
def withAge (c : Code) (offset : Nat) (young : Bool) : Except Fault Code := do
  require (offset < max c.instructions.size 1) .breach
  return { c with age := some ⟨offset, young⟩ }

/-- The address after the last instruction. -/
def stop (c : Code) : Except Fault UInt64 := pcAfter c.base c.instructions.size

/-- Where the instructions lie. -/
def region (c : Code) : Except Fault Region := do
  return ⟨c.base, ← c.stop⟩

/-- The address of the age sequence. -/
def ageAddress (c : Code) : Except Fault (Option UInt64) :=
  match c.age with
  | none => .ok none
  | some age => (pcAfter c.base age.offset).map some

/-- The word in the instructions at an address, lowest byte first. A byte that is not there counts
as zero. -/
def wordAt (c : Code) (address : UInt64) : UInt64 :=
  let offset := (address - c.base).toNat
  let bytes := c.instructions.extract offset (offset + Wire.pointerSize)
  (bytesOf bytes).foldr (fun byte word => 256 * word + byte.toUInt64) 0

/-- Whether the age sequence is young. Code without one counts as young. -/
def isYoung (c : Code) : Bool := c.age.all CodeAge.young

/-- A reader of the records of wanted modes. The age sequence is among them once it is old. -/
def reader (c : Code) (mask : Mask) : Except Fault Reader := do
  let address ← c.ageAddress
  Reader.start c.stream c.base mask (if c.isYoung then none else address)

/-- The records of wanted modes. -/
def walk (c : Code) (mask : Mask) : Walk :=
  match c.reader mask with
  | .ok r => r.walk
  | .error fault => ⟨#[], some fault⟩

/-- The modes of records that have to be adjusted when the code moves. -/
def movable : Mask := (Mask.codeTargets.union .collected).union .applied

/-- Whether there is a record that has to be adjusted when the code moves. -/
def needsRelocation (c : Code) : Except Fault Bool := do
  let r ← c.reader movable
  return !r.done

end Code

end CodeReloc
