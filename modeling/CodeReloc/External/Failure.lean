set_option autoImplicit false

/-!
# Look-ups that fail

Code may ask for a function by its number or name, or for a constant by its index. Where there is
none the answer says what was asked for.
-/

namespace CodeReloc

/-- Why there is no address to answer with. -/
inductive LookupError where
  | unknownRuntimeFunction (id : UInt32)
  | unknownBuiltin (id : UInt32)
  | unknownBuiltinName (name : String)
  | unknownCFunction (id : UInt32)
  | expConstantOutOfRange (index count : Nat)
  deriving DecidableEq, Repr

namespace LookupError

/-- The identifier of a failure. -/
def label : LookupError → String
  | unknownRuntimeFunction _ => "UnknownRuntimeFunction"
  | unknownBuiltin _ => "UnknownBuiltin"
  | unknownBuiltinName _ => "UnknownBuiltinName"
  | unknownCFunction _ => "UnknownCFunction"
  | expConstantOutOfRange .. => "MathExpConstantOutOfRange"

/-- The text of a failure. -/
def message : LookupError → String
  | unknownRuntimeFunction id => s!"Unknown runtime function id: {id.toNat}"
  | unknownBuiltin id => s!"Unknown builtin id: {id.toNat}"
  | unknownBuiltinName name => s!"Unknown builtin: {name}"
  | unknownCFunction id => s!"Unknown C function id: {id.toNat}"
  | expConstantOutOfRange index count =>
    s!"Math exp constant index {index} out of range (len={count})"

end LookupError

end CodeReloc
