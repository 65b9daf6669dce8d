import Mathlib.Algebra.Field.Rat
import Mathlib.Algebra.GroupWithZero.Basic
import Mathlib.Algebra.Order.Group.Int
import Mathlib.Data.Nat.Find
import Mathlib.Logic.Function.Iterate
import CodeReloc.Number.Power

set_option autoImplicit false

/-!
# The power by binary digits

The loop of `powerInt` carries a base, a product and what is left of the exponent (`PowerState`).
One round takes two binary digits off the exponent and multiplies what they stand for into the
product, so the number that the state stands for stays the same (`PowerState.value_round`). The
exponent loses a factor of 4 in every round (`PowerState.exponent_rounds`) and has 32 digits at
most, which bounds the rounds by 16. When the exponent is used up, the product is what the state
stands for.

Main statement: `powerInt_eq_zpow`.
-/

namespace CodeReloc

/-- What the rounds of `powerLoop` carry. -/
structure PowerState (α : Type) where
  base : α
  product : α
  exponent : Nat

namespace PowerState

section

variable {α : Type} [Monoid α]

/-- The number that is left to be computed. -/
def value (s : PowerState α) : α := s.product * s.base ^ s.exponent

/-- The product after the last binary digit of the exponent. -/
def multiplied (s : PowerState α) : α :=
  if s.exponent % 2 = 1 then s.product * s.base else s.product

/-- One binary digit of the exponent. -/
def halved (s : PowerState α) : PowerState α :=
  ⟨s.base * s.base, s.multiplied, s.exponent / 2⟩

/-- One round of the loop: two binary digits. -/
def round (s : PowerState α) : PowerState α := s.halved.halved

/-- What the loop returns from a state. -/
def loop (s : PowerState α) : α := powerLoop s.base s.product s.exponent

/-- A digit leaves the number that is left to be computed as it is. -/
theorem value_halved (s : PowerState α) : s.halved.value = s.value := by
  have hdigits : s.exponent % 2 + 2 * (s.exponent / 2) = s.exponent :=
    Nat.mod_add_div s.exponent 2
  have hsquare : (s.base * s.base) ^ (s.exponent / 2) = s.base ^ (2 * (s.exponent / 2)) := by
    rw [pow_mul, pow_two]
  have hmultiplied : s.multiplied = s.product * s.base ^ (s.exponent % 2) := by
    rw [multiplied]
    obtain hdigit | hdigit := Nat.mod_two_eq_zero_or_one s.exponent
    · rw [hdigit, if_neg Nat.zero_ne_one, pow_zero, mul_one]
    · rw [hdigit, if_pos rfl, pow_one]
  calc s.halved.value
      = s.multiplied * (s.base * s.base) ^ (s.exponent / 2) := rfl
    _ = s.product * (s.base ^ (s.exponent % 2) * s.base ^ (2 * (s.exponent / 2))) := by
        rw [hmultiplied, hsquare, mul_assoc]
    _ = s.value := by rw [← pow_add, hdigits, value]

/-- **A round leaves the number that is left to be computed as it is.** -/
theorem value_round (s : PowerState α) : s.round.value = s.value := by
  rw [round, value_halved, value_halved]

theorem exponent_round (s : PowerState α) : s.round.exponent = s.exponent / 4 :=
  Nat.div_div_eq_div_mul s.exponent 2 2

/-- While there is an exponent left the loop goes on with one more round. -/
theorem loop_round {s : PowerState α} (h : s.exponent ≠ 0) : s.loop = s.round.loop := by
  rw [loop, powerLoop, if_neg h, loop, exponent_round]
  rfl

/-- When the exponent is used up the loop returns the product. -/
theorem loop_of_exponent_eq_zero {s : PowerState α} (h : s.exponent = 0) :
    s.loop = s.product := by
  rw [loop, powerLoop, if_pos h]

theorem value_of_exponent_eq_zero {s : PowerState α} (h : s.exponent = 0) :
    s.value = s.product := by
  rw [value, h, pow_zero, mul_one]

/-! ## Runs of rounds -/

theorem value_rounds (s : PowerState α) (k : Nat) : (round^[k] s).value = s.value := by
  induction k with
  | zero => rfl
  | succ k ih => rw [Function.iterate_succ_apply', value_round, ih]

theorem exponent_rounds (s : PowerState α) (k : Nat) :
    (round^[k] s).exponent = s.exponent / 4 ^ k := by
  induction k with
  | zero => exact (Nat.div_one s.exponent).symm
  | succ k ih =>
    rw [Function.iterate_succ_apply', exponent_round, ih, Nat.div_div_eq_div_mul, Nat.pow_succ]

/-- Rounds that all begin with an exponent do not change what the loop returns. -/
theorem loop_rounds {s : PowerState α} {k : Nat}
    (h : ∀ j < k, (round^[j] s).exponent ≠ 0) : (round^[k] s).loop = s.loop := by
  induction k with
  | zero => rfl
  | succ k ih =>
    have hlast : (round^[k] s).exponent ≠ 0 := h k (Nat.lt_succ_self k)
    have hbefore : ∀ j < k, (round^[j] s).exponent ≠ 0 :=
      fun j hj => h j (Nat.lt_succ_of_lt hj)
    rw [Function.iterate_succ_apply', ← loop_round hlast, ih hbefore]

/-- **The loop ends.** An exponent below `4 ^ n` is used up after some number of rounds, `n` at
most; until then every round begins with an exponent, and afterwards the product is the number that
the first state stands for. -/
theorem exists_rounds (s : PowerState α) {n : Nat} (h : s.exponent < 4 ^ n) :
    ∃ k ≤ n, (∀ j < k, (round^[j] s).exponent ≠ 0) ∧ (round^[k] s).exponent = 0 ∧
      s.loop = (round^[k] s).product ∧ (round^[k] s).product = s.value := by
  have hends : ∃ k, (round^[k] s).exponent = 0 :=
    ⟨n, by rw [exponent_rounds, Nat.div_eq_of_lt h]⟩
  have hend : (round^[Nat.find hends] s).exponent = 0 := Nat.find_spec hends
  have hgoes : ∀ j < Nat.find hends, (round^[j] s).exponent ≠ 0 :=
    fun j hj => Nat.find_min hends hj
  refine ⟨Nat.find hends, ?_, hgoes, hend, ?_, ?_⟩
  · apply Nat.find_min'
    rw [exponent_rounds, Nat.div_eq_of_lt h]
  · rw [← loop_rounds hgoes, loop_of_exponent_eq_zero hend]
  · rw [← value_of_exponent_eq_zero hend, value_rounds]

end

/-- Where `powerInt` begins. -/
def start (x : ℚ) (y : Int32) : PowerState ℚ :=
  ⟨if y < 0 then 1 / x else x, 1, y.toInt.natAbs⟩

/-- The state at the start stands for the power, whatever the sign of the exponent is. -/
theorem value_start (x : ℚ) (y : Int32) : (start x y).value = x ^ y.toInt := by
  rw [value, start, one_mul]
  by_cases hy : y < 0
  · have hneg : y.toInt ≤ 0 := (Int32.lt_iff_toInt_lt.1 hy).le
    have hexponent : y.toInt = -(y.toInt.natAbs : ℤ) := by omega
    rw [if_pos hy, one_div, inv_pow, ← zpow_natCast, ← zpow_neg, ← hexponent]
  · have hnonneg : 0 ≤ y.toInt := Int32.le_iff_toInt_le.1 (Int32.not_lt.1 hy)
    rw [if_neg hy, ← zpow_natCast, Int.natAbs_of_nonneg hnonneg]

end PowerState

/-- An exponent of 32 bits has 16 pairs of binary digits, also the least one, whose absolute value
is no such exponent. -/
theorem natAbs_toInt_lt (y : Int32) : y.toInt.natAbs < 4 ^ 16 := by
  have hlow : -2 ^ 31 ≤ y.toInt := y.le_toInt
  have hhigh : y.toInt < 2 ^ 31 := y.toInt_lt
  omega

/-- **The loop computes the power.** With exact products and quotients, for every rational number
and every exponent of 32 bits, the loop ends: after 16 rounds at the latest, and after the first
round that leaves nothing of the exponent, it returns the power. A negative power of zero, which
is no number, is zero here as in `zpow`. -/
theorem powerInt_eq_zpow (x : ℚ) (y : Int32) :
    (∃ k ≤ 16, (∀ j < k, (PowerState.round^[j] (.start x y)).exponent ≠ 0) ∧
      (PowerState.round^[k] (.start x y)).exponent = 0 ∧
      powerInt x y = (PowerState.round^[k] (.start x y)).product) ∧
    powerInt x y = x ^ y.toInt := by
  obtain ⟨k, hk, hgoes, hend, hloop, hvalue⟩ :=
    (PowerState.start x y).exists_rounds (natAbs_toInt_lt y)
  have hproduct : powerInt x y = (PowerState.round^[k] (.start x y)).product := hloop
  refine ⟨⟨k, hk, hgoes, hend, hproduct⟩, ?_⟩
  rw [hproduct, hvalue, PowerState.value_start]

/-- The least exponent takes all 16 rounds. -/
example : (PowerState.round^[15] (PowerState.start 2 Int32.minValue)).exponent = 2 := by
  rw [PowerState.exponent_rounds]
  decide

end CodeReloc
