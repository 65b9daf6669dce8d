set_option autoImplicit false

/-!
# Instances

A power with a literal exponent is core's in every module of this library, whatever else a module
imports, and so is the comparison of byte buffers. Answers that may be faults can be compared, so
that runs on fixed inputs are checked by evaluation.
-/

namespace CodeReloc

attribute [default_instance 20000] instPowNat

instance byteArrayDecidableEq : DecidableEq ByteArray := ByteArray.instDecidableEq

instance exceptDecidableEq {ε α : Type} [DecidableEq ε] [DecidableEq α] :
    DecidableEq (Except ε α)
  | .ok a, .ok b => decidable_of_iff (a = b) ⟨congrArg _, Except.ok.inj⟩
  | .error a, .error b => decidable_of_iff (a = b) ⟨congrArg _, Except.error.inj⟩
  | .ok _, .error _ => isFalse nofun
  | .error _, .ok _ => isFalse nofun

end CodeReloc
