import CodeReloc.External.Address
import CodeReloc.External.Failure

set_option autoImplicit false

/-!
# Numbers that code loads by address

Six doubles lie in cells of their own from the start. For exponentials there are nine more, and a
table of the fractions of the powers of two between 1 and 2. These are only built when one of them
is asked for, and may be taken down again.

The doubles are kept as bits, because one of them is no number and its bits count.
-/

namespace CodeReloc

/-- A double in a cell of its own. -/
inductive DoubleConstant where
  | minInt
  | oneHalf
  | minusOneHalf
  | negativeInfinity
  | theHoleNan
  | uint32Bias
  deriving DecidableEq, Repr

namespace DoubleConstant

/-- All of them, in the order of their cells. -/
def all : List DoubleConstant :=
  [minInt, oneHalf, minusOneHalf, negativeInfinity, theHoleNan, uint32Bias]

/-- The cell of a constant. -/
def index : DoubleConstant → Nat
  | minInt => 0
  | oneHalf => 1
  | minusOneHalf => 2
  | negativeInfinity => 3
  | theHoleNan => 4
  | uint32Bias => 5

/-- The bits of a constant. The hole is marked by one of the many doubles that are no number. -/
def bits : DoubleConstant → UInt64
  | minInt => 0xc1e0000000000000
  | oneHalf => 0x3fe0000000000000
  | minusOneHalf => 0xbfe0000000000000
  | negativeInfinity => 0xfff0000000000000
  | theHoleNan => 0xfff7fffffff7ffff
  | uint32Bias => 0x41f0000000000000

/-- The name of a constant. -/
def name : DoubleConstant → String
  | minInt => "min_int"
  | oneHalf => "one_half"
  | minusOneHalf => "minus_one_half"
  | negativeInfinity => "negative_infinity"
  | theHoleNan => "the_hole_nan"
  | uint32Bias => "uint32_bias"

/-- The value of a constant as text. -/
def text : DoubleConstant → String
  | minInt => "-2147483648.0"
  | oneHalf => "0.5"
  | minusOneHalf => "-0.5"
  | negativeInfinity => "-inf"
  | theHoleNan => "NaN"
  | uint32Bias => "4294967296.0"

end DoubleConstant

namespace ExpTables

/-- The entries of the table. -/
def size : Nat := 2 ^ 11

/-- How many entries of the table there are for each power of e. -/
def scale : Float := size.toFloat / 0.693147180559945309417232121458

/-- The constants: the bounds below and above which the result is known, infinity, the scale of the
table, the number whose sum with a small one has that one's whole part in its last bits, the inverse
of the scale, and the factors of a polynomial. -/
def constants : Array Float :=
  #[-708.39641853226408, 709.78271289338397, 1.0 / 0.0, scale, (3 * 2 ^ 51 : Nat).toFloat,
    1.0 / scale, 3.0000000027955394, 0.16666666685227835, 1.0]

/-- How many constants there are. -/
def count : Nat := 9

/-- An entry of the table: the fraction bits of a power of two between 1 and 2. -/
def logBits (index : Nat) : UInt64 :=
  let power := Float.pow 2.0 (index.toFloat / size.toFloat)
  UInt64.ofNat (power.toBits.toNat % 2 ^ 52)

end ExpTables

/-- A set of constants. -/
structure ConstantSet where
  /-- What tells this set from other sets. -/
  id : Nat
  /-- Whether the tables for exponentials are there. -/
  expReady : Bool
  deriving DecidableEq, Repr

namespace ConstantSet

/-- A set without the tables for exponentials. -/
def new (id : Nat) : ConstantSet := ⟨id, false⟩

/-- Where a double lies. -/
def doubleAddress (id : Nat) (c : DoubleConstant) : Address :=
  .within (.doubles id) (cellSize * c.index)

/-- Builds the tables, unless they are there. -/
def buildExp (k : ConstantSet) : ConstantSet := { k with expReady := true }

/-- Takes the tables down. -/
def tearDownExp (k : ConstantSet) : ConstantSet := { k with expReady := false }

/-- The constants for exponentials, if they are there. -/
def expConstants? (k : ConstantSet) : Option (Array Float) :=
  if k.expReady then some ExpTables.constants else none

/-- The table for exponentials from one entry up to another, if it is there. -/
def logBits? (k : ConstantSet) (start stop : Nat) : Option (List UInt64) :=
  if k.expReady then some ((List.range' start (stop - start)).map ExpTables.logBits) else none

/-- The length of the table, if it is there. -/
def logSize? (k : ConstantSet) : Option Nat :=
  if k.expReady then some ExpTables.size else none

/-- Where a constant for exponentials lies. Builds the tables when they are asked for. -/
def expAddress (k : ConstantSet) (index : Nat) :
    Except LookupError (Address × ConstantSet) :=
  if index < ExpTables.count then
    .ok (.within (.exp k.id) (cellSize * index), k.buildExp)
  else
    .error (.expConstantOutOfRange index ExpTables.count)

/-- Where the table for exponentials begins. Builds the tables when they are asked for. -/
def logAddress (k : ConstantSet) : Address × ConstantSet :=
  (.within (.log k.id) 0, k.buildExp)

/-- The bits in a cell of the constants. -/
def read (k : ConstantSet) (a : Address) : Option UInt64 :=
  match a with
  | .within block offset =>
    if offset % cellSize = 0 then
      match block with
      | .doubles id =>
        if id = k.id then (DoubleConstant.all[offset / cellSize]?).map DoubleConstant.bits else none
      | .exp id =>
        if id = k.id then (ExpTables.constants[offset / cellSize]?).map Float.toBits else none
      | .log id =>
        if id = k.id ∧ offset / cellSize < ExpTables.size then
          some (ExpTables.logBits (offset / cellSize))
        else
          none
      | _ => none
    else
      none
  | .absolute _ => none

/-- The constants as text. -/
def text (k : ConstantSet) : String :=
  let doubles := DoubleConstant.all.map fun c => s!"{c.name}: {c.text}"
  "ExternalConstants \x7b doubles: DoubleConstants \x7b " ++ ", ".intercalate doubles
    ++ " \x7d, math_exp_initialized: " ++ (if k.expReady then "true" else "false") ++ " \x7d"

end ConstantSet

end CodeReloc
