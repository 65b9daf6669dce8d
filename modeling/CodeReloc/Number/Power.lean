import CodeReloc.Instances

set_option autoImplicit false

/-!
# Powers

`powerInt` raises a number to an integer exponent. It goes through the binary digits of the
exponent, two of them per round, and squares the base as it goes; for a negative exponent it starts
from the reciprocal. Nothing but products and one quotient is used, so the same definition works
for every kind of number.

`powerQuiet` and `powerFast` raise a double to a double. They differ from the usual power in what
they say of exponents that are no number and of bases of absolute value 1, and `powerFast` treats
whole exponents and square roots apart.

A double that is no number may be a signalling one. That shows in its bits only, and matters in one
place: to the exponent 0, a base that is quietly no number gives 1 and a signalling one does not.
`powerDouble` therefore takes its arguments by their bits.
-/

namespace CodeReloc

/-- The product of `p` with the power of `m` to the exponent `n`. -/
def powerLoop {α : Type} [Mul α] (m p : α) (n : Nat) : α :=
  if n = 0 then
    p
  else
    let p := if n % 2 = 1 then p * m else p
    let m := m * m
    let p := if n / 2 % 2 = 1 then p * m else p
    powerLoop (m * m) p (n / 4)
termination_by n

/-- A number to an integer exponent. Every number to the exponent 0 is 1. -/
def powerInt {α : Type} [Mul α] [Div α] [OfNat α 1] (x : α) (y : Int32) : α :=
  powerLoop (if y < 0 then 1 / x else x) 1 y.toInt.natAbs

/-- A double to a double. An exponent that is no number gives no number, and so does an infinite
exponent over a base of absolute value 1. -/
def powerQuiet (x y : Float) : Float :=
  if y.isNaN || ((x == 1.0 || x == -1.0) && y.isInf) then 0.0 / 0.0 else Float.pow x y

/-- Whether bits are those of a signalling double: the exponent is that of no number, and the
fraction is not zero but has its highest bit clear. -/
def isSignalling (bits : UInt64) : Bool :=
  let exponent := bits.toNat / 2 ^ 52 % 2 ^ 11
  let fraction := bits.toNat % 2 ^ 52
  exponent == 2 ^ 11 - 1 && 0 < fraction && fraction < 2 ^ 51

/-- A double to a double, both given by their bits. A signalling base gives no number, whatever the
exponent is. -/
def powerDouble (x y : UInt64) : Float :=
  if isSignalling x then 0.0 / 0.0 else powerQuiet (Float.ofBits x) (Float.ofBits y)

/-- A double to a double, with whole exponents and square roots taken apart. As 0 is a whole
exponent, signalling bases need no case of their own. -/
def powerFast (x y : Float) : Float :=
  let whole := y.toInt32
  if y == whole.toFloat then
    powerInt x whole
  else if y == 0.5 then
    -- The sum turns a negative zero into a positive one.
    if x.isInf then 1.0 / 0.0 else Float.sqrt (x + 0.0)
  else if y == -0.5 then
    if x.isInf then 0.0 else 1.0 / Float.sqrt (x + 0.0)
  else
    powerQuiet x y

end CodeReloc
