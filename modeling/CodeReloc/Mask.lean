import CodeReloc.Mode

set_option autoImplicit false

/-!
# Sets of modes

A mask is a set of modes in one 32-bit word: the mode with code `n` is the bit of value `2 ^ n`.
The full mask has all 32 bits set, so it also holds bits that belong to no mode.
-/

namespace CodeReloc

/-- A set of modes, one bit per mode. -/
structure Mask where
  bits : UInt32
  deriving DecidableEq, Repr, Inhabited

namespace Mask

/-- Every bit. -/
def all : Mask := ⟨0xffffffff⟩

/-- No bit. -/
def empty : Mask := ⟨0⟩

/-- The set of one mode. -/
def of (m : Mode) : Mask := ⟨1 <<< UInt32.ofNat m.code⟩

/-- The modes of either set. -/
def union (a b : Mask) : Mask := ⟨a.bits ||| b.bits⟩

/-- The set of the modes of a list. -/
def ofList (ms : List Mode) : Mask := ms.foldl (fun mask m => mask.union (of m)) empty

/-- Whether the mode belongs to the set. -/
def contains (mask : Mask) (m : Mode) : Bool :=
  mask.bits &&& (1 <<< UInt32.ofNat m.code) != 0

/-- Whether two sets share a bit. -/
def intersects (a b : Mask) : Bool := a.bits &&& b.bits != 0

/-- Whether no bit is set. -/
def isEmpty (mask : Mask) : Bool := mask.bits == 0

/-! ## Named sets -/

/-- The code targets: the bits up to the last code target. -/
def codeTargets : Mask := ⟨(1 <<< UInt32.ofNat (Mode.lastCodeTarget.code + 1)) - 1⟩

/-- Source positions of both kinds. -/
def positions : Mask := (of .position).union (of .statementPosition)

/-- The debug break slots. -/
def debugBreakSlots : Mask :=
  (((of .debugBreakSlotAtPosition).union (of .debugBreakSlotAtReturn)).union
    (of .debugBreakSlotAtCall)).union (of .debugBreakSlotAtConstructCall)

/-- What the collector has to visit. -/
def collected : Mask := (codeTargets.union (of .embeddedObject)).union (of .cell)

/-- What has to be adjusted when code moves. -/
def applied : Mask :=
  (((codeTargets.union (of .runtimeEntry)).union (of .internalReference)).union
    (of .internalReferenceEncoded)).union (of .codeAgeSequence)

/-! ## Membership -/

@[simp] theorem contains_all (m : Mode) : all.contains m = true := by
  cases m <;> decide

@[simp] theorem contains_empty (m : Mode) : empty.contains m = false := by
  cases m <;> decide

theorem contains_of (m n : Mode) : (of m).contains n = decide (m = n) := by
  cases m <;> cases n <;> decide

theorem intersects_of (mask : Mask) (m : Mode) : mask.intersects (of m) = mask.contains m := rfl

theorem intersects_union (a b c : Mask) :
    a.intersects (b.union c) = (a.intersects b || a.intersects c) := by
  have h : a.bits &&& (b.bits ||| c.bits) = (a.bits &&& b.bits) ||| (a.bits &&& c.bits) := by
    apply UInt32.toBitVec_inj.1
    simp [BitVec.and_or_distrib_left]
  rw [Bool.eq_iff_iff]
  simp only [intersects, union, h, Bool.or_eq_true, bne_iff_ne, ne_eq, UInt32.or_eq_zero_iff,
    Decidable.not_and_iff_or_not]

/-- A mask that holds one of the two position modes meets the set of both. -/
theorem intersects_positions (mask : Mask) :
    mask.intersects positions = (mask.contains .position || mask.contains .statementPosition) := by
  rw [positions, intersects_union, intersects_of, intersects_of]

end Mask

end CodeReloc
