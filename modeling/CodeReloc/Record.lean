import CodeReloc.Fault

set_option autoImplicit false

/-!
# Relocation records

A record is a mode at a place, with one number of data. What the number means depends on the mode:
an id for a code target with id, a source position for the two position modes, a reason for a
deopt reason, an index into the comment table for a comment, a size for a pool marker and an
argument count for a debug break slot at a call. The other modes have data 0.

Places are 64-bit words. A place that would leave that range is a fault, so `pcAfter` is the only
way in which this library moves a place forward.
-/

namespace CodeReloc

/-- A mode at a place, with its data. -/
structure Record where
  pc : UInt64
  mode : Mode
  data : Int64
  deriving DecidableEq, Repr, Inhabited

namespace Record

/-- A record without data. -/
def bare (pc : UInt64) (mode : Mode) : Record := ⟨pc, mode, 0⟩

/-- The argument count of a debug break slot at a call: the low 32 bits of the data. -/
def callArguments (data : Int64) : Int32 := data.toInt32

end Record

/-- The position that stands for "not known". -/
def noPosition : Int32 := -1

/-- The place `n` bytes further on, if it is still a 64-bit place. -/
def pcAfter (pc : UInt64) (n : Nat) : Except Fault UInt64 :=
  if pc.toNat + n < 2 ^ 64 then .ok (UInt64.ofNat (pc.toNat + n)) else .error .breach

theorem pcAfter_eq_ok {pc q : UInt64} {n : Nat} :
    pcAfter pc n = .ok q ↔ q.toNat = pc.toNat + n := by
  unfold pcAfter
  split
  · rename_i h
    constructor
    · intro e
      cases e
      simpa using Nat.mod_eq_of_lt h
    · intro e
      rw [← e]
      simp
  · rename_i h
    simp only [reduceCtorEq, false_iff]
    intro e
    exact h (e ▸ q.toNat_lt)

theorem pcAfter_eq_error {pc : UInt64} {n : Nat} {fault : Fault} :
    pcAfter pc n = .error fault ↔ 2 ^ 64 ≤ pc.toNat + n ∧ fault = .breach := by
  unfold pcAfter
  split
  · rename_i h
    simp only [reduceCtorEq, false_iff]
    omega
  · rename_i h
    rw [Except.error.injEq, eq_comm]
    exact ⟨fun e => ⟨by omega, e⟩, And.right⟩

/-- Places that stay within 64 bits are added as numbers. -/
theorem toNat_add_of_lt {start pc : UInt64} (h : start.toNat + pc.toNat < 2 ^ 64) :
    (start + pc).toNat = start.toNat + pc.toNat := by
  rw [UInt64.toNat_add]
  exact Nat.mod_eq_of_lt h

end CodeReloc
