import CodeReloc.Instances

set_option autoImplicit false

/-!
# Addresses as text

An address is written in base sixteen, lower case, without leading zeros, after `0x`.
-/

namespace CodeReloc

/-- The text of an address. -/
def hexAddress (address : Nat) : String :=
  "0x" ++ String.ofList (Nat.toDigits 16 address)

end CodeReloc
