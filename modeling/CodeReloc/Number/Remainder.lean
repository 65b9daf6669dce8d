import CodeReloc.Instances

set_option autoImplicit false

/-!
# Remainders of doubles

Every finite double is a whole number of units of `2 ^ (-1074)`, the least positive double. The
remainder of a division that is cut off toward zero is therefore the remainder of two whole
numbers, without any rounding, and it has the sign of the dividend.
-/

namespace CodeReloc

/-- What the bits of a double stand for. A finite one is a sign and a number of units. -/
inductive DoubleValue where
  | finite (negative : Bool) (units : Nat)
  | infinite (negative : Bool)
  | notANumber
  deriving DecidableEq, Repr

namespace DoubleValue

/-- The parts of a double: the sign in the highest bit, 11 bits of exponent, 52 bits of fraction. -/
def ofBits (bits : Nat) : DoubleValue :=
  let negative := bits / 2 ^ 63 % 2 = 1
  let exponent := bits / 2 ^ 52 % 2 ^ 11
  let fraction := bits % 2 ^ 52
  if exponent = 2 ^ 11 - 1 then
    if fraction = 0 then .infinite negative else .notANumber
  else if exponent = 0 then
    .finite negative fraction
  else
    .finite negative ((2 ^ 52 + fraction) <<< (exponent - 1))

/-- The bits of a number of units that is a double. -/
def unitsBits (units : Nat) : Nat :=
  if units < 2 ^ 52 then
    units
  else
    let shift := units.log2 - 52
    (shift + 1) * 2 ^ 52 + (units >>> shift - 2 ^ 52)

/-- The bits of a finite double. -/
def finiteBits (negative : Bool) (units : Nat) : Nat :=
  (if negative then 2 ^ 63 else 0) + unitsBits units

end DoubleValue

/-- The remainder of `x` by `y`, with the sign of `x`. Where there is none the answer is no
number. -/
def remainder (x y : Float) : Float :=
  match DoubleValue.ofBits x.toBits.toNat, DoubleValue.ofBits y.toBits.toNat with
  | .finite negative a, .finite _ b =>
    if b = 0 then 0.0 / 0.0
    else Float.ofBits (UInt64.ofNat (DoubleValue.finiteBits negative (a % b)))
  | .finite .., .infinite _ => x
  | _, _ => 0.0 / 0.0

end CodeReloc
