import CodeReloc.Wire
import Mathlib.Algebra.Group.Int.Defs
import Mathlib.Algebra.Group.Nat.Defs

set_option autoImplicit false

/-!
# What the range tests admit

A range test compares a 64-bit word with a bound that is a 64-bit word itself. The signed bound is a
power below the sign bit for every width, so the signed test is exact. The unsigned bound reaches
the sign bit at 63 bits and becomes the least word there is: at that width no number passes
(`inUnsigned_full`), at every smaller one the test is exact.

Main statement: `Wire.rangeTests_eq`. `Wire.testUnsigned_full` is a number of 63 bits that is turned
down.
-/

namespace CodeReloc

/-- The offsets that pass the range test of a width: none for a width of 63 bits. -/
def span (bits : Nat) : Nat := if bits < 63 then 2 ^ bits else 0

theorem span_eq {bits : Nat} (hbits : bits ≤ 62) : span bits = 2 ^ bits :=
  if_pos (Nat.lt_succ_of_le hbits)

theorem span_le (bits : Nat) : span bits ≤ 2 ^ bits := by
  rw [span]
  split
  · exact Nat.le_of_eq rfl
  · exact Nat.zero_le _

theorem span_lt (bits : Nat) : span bits < 2 ^ 63 := by
  rw [span]
  split
  · rename_i hbits
    exact Nat.pow_lt_pow_right (by decide) hbits
  · decide

namespace Wire

variable {value : Int64} {bits : Nat}

/-- At 63 bits the bound is the least word there is. -/
theorem inUnsigned_full (value : Int64) : inUnsigned value 63 = false := by
  have hleast := Int64.minValue_le_toInt value
  have hbound : (Int64.ofNat (1 <<< 63)).toInt = Int64.minValue.toInt := by decide
  have hbelow : ¬ value < Int64.ofNat (1 <<< 63) := by
    intro hvalue
    rw [Int64.lt_iff_toInt_lt] at hvalue
    omega
  rw [inUnsigned, decide_eq_false hbelow, Bool.and_false]

/-- What the unsigned test answers. -/
theorem testUnsigned_eq (hbits : 0 < bits ∧ bits < 64) :
    testUnsigned value bits =
      .ok (decide (0 ≤ value.toInt ∧ value.toInt < (span bits : Nat))) := by
  rw [testUnsigned, if_pos hbits, span]
  apply congrArg Except.ok
  by_cases hsmall : bits < 63
  · rw [Bool.eq_iff_iff, decide_eq_true_eq, inUnsigned_iff hsmall, if_pos hsmall,
      Nat.one_shiftLeft]
  · have hfull : bits = 63 := by omega
    rw [if_neg hsmall, hfull, inUnsigned_full]
    symm
    apply decide_eq_false
    omega

/-- What the signed test answers. -/
theorem testSigned_eq (hbits : 0 < bits ∧ bits < 64) :
    testSigned value bits =
      .ok (decide (-2 ^ (bits - 1) ≤ value.toInt ∧ value.toInt < 2 ^ (bits - 1))) := by
  have hbound : ((1 <<< (bits - 1) : Nat) : Int) = 2 ^ (bits - 1) := by
    rw [Nat.one_shiftLeft]
    norm_cast
  rw [testSigned, if_pos hbits]
  apply congrArg Except.ok
  rw [Bool.eq_iff_iff, decide_eq_true_eq, inSigned_iff hbits.2, hbound]

/-- **The range tests answer for every width of 1 to 63 bits.** The signed test is exact. The
unsigned one is exact up to 62 bits and admits nothing at 63. -/
theorem rangeTests_eq (value : Int64) {bits : Nat} (hbits : 1 ≤ bits ∧ bits ≤ 63) :
    testUnsigned value bits =
        .ok (decide (0 ≤ value.toInt ∧ value.toInt < 2 ^ bits ∧ bits ≠ 63)) ∧
      testSigned value bits =
        .ok (decide (-2 ^ (bits - 1) ≤ value.toInt ∧ value.toInt < 2 ^ (bits - 1))) := by
  have hwidth : 0 < bits ∧ bits < 64 := ⟨hbits.1, Nat.lt_succ_of_le hbits.2⟩
  refine ⟨?_, testSigned_eq hwidth⟩
  rw [testUnsigned_eq hwidth]
  apply congrArg Except.ok
  rw [decide_eq_decide, span]
  by_cases hsmall : bits < 63
  · have hpower : ((2 ^ bits : Nat) : Int) = 2 ^ bits := by norm_cast
    rw [if_pos hsmall, hpower]
    have hne : bits ≠ 63 := Nat.ne_of_lt hsmall
    simp only [hne, ne_eq, not_false_eq_true, and_true]
  · have hfull : bits = 63 := by omega
    rw [if_neg hsmall]
    constructor
    · rintro ⟨hlow, hhigh⟩
      omega
    · rintro ⟨-, -, hne⟩
      exact absurd hfull hne

/-- The last width at which the unsigned test admits anything, and the last one of all. -/
theorem rangeTests_eq_widest :
    testUnsigned 4611686018427387903 62 = .ok true ∧
      testUnsigned 4611686018427387904 62 = .ok false ∧
      testSigned (-4611686018427387904) 63 = .ok true ∧
        testSigned 4611686018427387904 63 = .ok false := by
  have hwide : 1 ≤ 62 ∧ 62 ≤ 63 := by decide
  have hwidest : 1 ≤ 63 ∧ 63 ≤ 63 := by decide
  refine ⟨?_, ?_, ?_, ?_⟩
  · exact (rangeTests_eq 4611686018427387903 hwide).1
  · exact (rangeTests_eq 4611686018427387904 hwide).1
  · exact (rangeTests_eq (-4611686018427387904) hwidest).2
  · exact (rangeTests_eq 4611686018427387904 hwidest).2

/-- A number of 63 bits that the unsigned test of 63 bits turns down. -/
theorem testUnsigned_full :
    testUnsigned 0 63 = .ok false ∧ 0 ≤ (0 : Int64).toInt ∧ (0 : Int64).toInt < 2 ^ 63 := by
  decide

end Wire

end CodeReloc
