import CodeReloc.Fault
import CodeReloc.Wire

set_option autoImplicit false

/-!
# Collecting constants

Constants that code loads are collected while the code is generated and laid out in one block, the
pool, afterwards. A load whose constant lies near the start of the pool is regular; one whose
constant lies beyond the reach of such a load is overflowed and needs more instructions. Which of
the two it is has to be known when the constant is added, long before the pool is laid out.

The pool begins with the doubles and goes on with the pointers, both 8 bytes wide, as far as they
are regular; the overflowed ones follow. A constant that may be shared and is equal to an earlier
regular one of its type needs no slot of its own: it is merged with that one.
-/

namespace CodeReloc

/-- What a slot of the pool holds. -/
inductive EntryType where
  | intPtr
  | double
  deriving DecidableEq, Repr

/-- The bytes of a slot. -/
def EntryType.size : EntryType → Nat
  | intPtr => Wire.pointerSize
  | double => 8

/-- The identifier of a type. -/
def EntryType.label : EntryType → String
  | intPtr => "IntPtr"
  | double => "Double"

/-- How a load reaches its slot. -/
inductive Access where
  | regular
  | overflowed
  deriving DecidableEq, Repr

/-- The identifier of an access. -/
def Access.label : Access → String
  | regular => "Regular"
  | overflowed => "Overflowed"

/-- A constant and the load that uses it. -/
structure PoolEntry where
  /-- Where the load lies in the code. -/
  position : Nat
  /-- The bits of the constant. -/
  value : UInt64
  /-- Whether the slot may be shared with an equal constant. -/
  sharable : Bool
  /-- The shared slot that the constant was merged into. -/
  slot : Option Nat
  deriving DecidableEq, Repr

namespace PoolEntry

/-- A pointer. -/
def intPtr (position : Nat) (value : UInt64) (sharable : Bool) : PoolEntry :=
  ⟨position, value, sharable, none⟩

/-- A double, given by its bits. Doubles may always be shared. -/
def double (position : Nat) (bits : UInt64) : PoolEntry := ⟨position, bits, true, none⟩

/-- Whether the constant shares the slot of an earlier one. -/
def isMerged (e : PoolEntry) : Bool := e.slot.isSome

end PoolEntry

/-- The constants of one type. -/
structure PoolSection where
  /-- The bits of offset that a regular load reaches. -/
  reach : Nat
  /-- The slots that regular loads reach. -/
  regularCount : Nat
  /-- Where the overflowed constants begin among `entries`. -/
  overflowStart : Option Nat
  /-- Constants with a slot of their own and constants that were merged, as they were added. -/
  entries : Array PoolEntry
  /-- Constants whose slots may be shared. -/
  shared : Array PoolEntry
  deriving Repr

namespace PoolSection

/-- Whether a constant of this type has overflowed. -/
def overflows (s : PoolSection) : Bool := s.overflowStart.isSome

/-- Whether nothing of this type was added. -/
def isEmpty (s : PoolSection) : Bool := s.entries.isEmpty && s.shared.isEmpty

/-- The shared slot of a value, if it has one. -/
def slotOf (s : PoolSection) (value : UInt64) : Option Nat :=
  s.shared.findIdx? fun e => e.value == value

/-- The section with one more constant, whose access has been settled. -/
def insert (s : PoolSection) (e : PoolEntry) (access : Access) : PoolSection :=
  let owned := e.sharable && !e.isMerged && access == .regular
  let s :=
    if owned then { s with shared := s.shared.push e }
    else { s with entries := s.entries.push e }
  if e.isMerged || s.overflows then s
  else
    match access with
    | .regular => { s with regularCount := s.regularCount + 1 }
    | .overflowed => { s with overflowStart := some (s.entries.size - 1) }

end PoolSection

/-- The constants collected so far. -/
structure ConstantPool where
  intPtrs : PoolSection
  doubles : PoolSection
  /-- Where the pool begins, once it is part of the code. -/
  emittedAt : Option Nat
  deriving Repr

namespace ConstantPool

/-- An empty pool whose regular loads reach the given bits of offset. -/
def new (pointerReach doubleReach : Nat) : ConstantPool :=
  ⟨⟨pointerReach, 0, none, #[], #[]⟩, ⟨doubleReach, 0, none, #[], #[]⟩, none⟩

/-- The constants of a type. -/
def part (p : ConstantPool) : EntryType → PoolSection
  | .intPtr => p.intPtrs
  | .double => p.doubles

/-- Whether nothing was added. -/
def isEmpty (p : ConstantPool) : Bool := p.intPtrs.isEmpty && p.doubles.isEmpty

/-- Whether the pool is part of the code. -/
def isEmitted (p : ConstantPool) : Bool := p.emittedAt.isSome

/-- Whether an offset is within reach of a regular load. -/
def reaches (offset reach : Nat) : Except Fault Bool :=
  Wire.testUnsigned (Int64.ofNat offset) reach

/-- Whether one more slot of a type is in reach of a regular load, with all slots that are there
now. A double lies in front of the pointers, so one more double moves every pointer. -/
def hasRoomFor (p : ConstantPool) : EntryType → Except Fault Bool
  | .double => do
    let offset := p.doubles.regularCount * EntryType.double.size
    if ← reaches offset p.doubles.reach then
      if p.intPtrs.regularCount = 0 then
        return true
      else
        let last := p.intPtrs.regularCount * EntryType.intPtr.size + offset
          + EntryType.double.size - EntryType.intPtr.size
        reaches last p.intPtrs.reach
    else
      return false
  | .intPtr =>
    reaches
      (p.intPtrs.regularCount * EntryType.intPtr.size
        + p.doubles.regularCount * EntryType.double.size)
      p.intPtrs.reach

/-- How the next constant of a type will be reached, if it is not merged. -/
def freshAccess (p : ConstantPool) (type : EntryType) : Except Fault Access := do
  if (p.part type).overflows then
    return .overflowed
  else
    return if ← p.hasRoomFor type then .regular else .overflowed

/-- Replaces the constants of a type. -/
def withPart (p : ConstantPool) (type : EntryType) (s : PoolSection) : ConstantPool :=
  match type with
  | .intPtr => { p with intPtrs := s }
  | .double => { p with doubles := s }

/-- Adds a constant. Answers how its load must reach it. -/
def add (p : ConstantPool) (e : PoolEntry) (type : EntryType) :
    Except Fault (Access × ConstantPool) := do
  require (!p.isEmitted) .poolEmitted
  let s := p.part type
  let slot := if e.sharable then s.slotOf e.value else e.slot
  let e := { e with slot := slot }
  require (slot.all (· < s.regularCount)) .breach
  let access ← if e.isMerged then pure .regular else p.freshAccess type
  return (access, p.withPart type (s.insert e access))

end ConstantPool

end CodeReloc
