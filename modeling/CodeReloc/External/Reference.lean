import CodeReloc.External.Registry

set_option autoImplicit false

/-!
# References of code to its surroundings

A reference is an address that code holds: the entry of a function, a cell of the runtime, a
constant. Two references are equal when their addresses are. Functions that code calls are
redirected when the reference is made, which may make a trampoline; cells are referred to as they
are.
-/

namespace CodeReloc

namespace Registry

variable {ρ : Type}

/-- The entry of a runtime function, redirected. -/
def functionReference [Redirecting ρ] (r : Registry ρ) (id : UInt32) :
    Except LookupError (Address × Registry ρ) := do
  let f ← r.function id
  return r.redirect f.entry .builtin

/-- The address of a builtin. -/
def builtinReference (r : Registry ρ) (id : UInt32) : Except LookupError Address := do
  let b ← r.builtin id
  return b.address

/-- The address of the builtin with a name. -/
def builtinNamedReference (r : Registry ρ) (name : String) : Except LookupError Address := do
  let b ← r.builtinNamed name
  return b.address

/-- The entry of a function of the surroundings, redirected. -/
def cFunctionReference [Redirecting ρ] (r : Registry ρ) (id : UInt32) :
    Except LookupError (Address × Registry ρ) := do
  let f ← r.cFunction id
  return r.redirect f.address .builtin

/-- The way in which a helper is called. -/
def helperCallType : MathHelper → CallType
  | .powerDouble => .builtinFpFp
  | .powerInt => .builtinFpInt
  | .remainder => .builtinFpFp

/-- The entry of a helper, redirected. -/
def helperReference [Redirecting ρ] (r : Registry ρ) (h : MathHelper) : Address × Registry ρ :=
  r.redirect (.within (.helper h) 0) (helperCallType h)

end Registry

end CodeReloc
