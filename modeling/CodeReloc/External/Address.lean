import CodeReloc.Hex

set_option autoImplicit false

/-!
# Addresses outside the code

Code refers to memory that is not its own. Some of it is known by a number, the rest is memory that
this library provides: cells of the runtime, tables of constants, trampolines. Where a block of that
memory lies is not known; what is known is that two blocks never overlap and that no number names a
place in one. Such a place is therefore a block and an offset into it.
-/

namespace CodeReloc

/-- A function that code may call for arithmetic. -/
inductive MathHelper where
  | powerDouble
  | powerInt
  | remainder
  deriving DecidableEq, Repr

/-- The name of a helper. -/
def MathHelper.name : MathHelper → String
  | powerDouble => "power_double_double"
  | powerInt => "power_double_int"
  | remainder => "modulo"

/-- A piece of memory that the library provides. Numbers tell apart what belongs to different
runtimes or different sets of constants. -/
inductive Block where
  /-- The data of a runtime. -/
  | data (runtime : Nat)
  /-- The roots of a runtime. -/
  | roots (runtime : Nat)
  /-- The constants that are doubles. -/
  | doubles (constants : Nat)
  /-- The constants for exponentials. -/
  | exp (constants : Nat)
  /-- The table for exponentials. -/
  | log (constants : Nat)
  /-- A trampoline of a runtime. -/
  | stub (runtime index : Nat)
  /-- The code of a helper. -/
  | helper (function : MathHelper)
  deriving DecidableEq, Repr

/-- A place in memory. -/
inductive Address where
  | absolute (address : UInt64)
  | within (block : Block) (offset : Nat)
  deriving DecidableEq, Repr

/-- The bytes of a cell. -/
def cellSize : Nat := 8

namespace Address

/-- The place some bytes further on. -/
def plus (a : Address) (bytes : Nat) : Address :=
  match a with
  | absolute address => absolute (address + UInt64.ofNat bytes)
  | within block offset => within block (offset + bytes)

/-- The text of an address. -/
def text : Address → String
  | absolute address => hexAddress address.toNat
  | within (.data runtime) offset => s!"data{runtime}+{offset}"
  | within (.roots runtime) offset => s!"roots{runtime}+{offset}"
  | within (.doubles constants) offset => s!"double{constants}+{offset}"
  | within (.exp constants) offset => s!"exp{constants}+{offset}"
  | within (.log constants) offset => s!"log{constants}+{offset}"
  | within (.stub runtime index) 0 => s!"stub{runtime}#{index}"
  | within (.stub runtime index) offset => s!"stub{runtime}#{index}+{offset}"
  | within (.helper function) 0 => s!"fn:{function.name}"
  | within (.helper function) offset => s!"fn:{function.name}+{offset}"

/-- The order of two addresses, where it is known. -/
def order? : Address → Address → Option Ordering
  | absolute a, absolute b => some (compare a b)
  | a, b => if a = b then some .eq else none

end Address

end CodeReloc
