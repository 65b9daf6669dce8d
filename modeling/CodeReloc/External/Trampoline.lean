import CodeReloc.External.Address

set_option autoImplicit false

/-!
# Redirected calls

Code never calls a function of its surroundings directly: the address that it calls has been
redirected before. Where code runs on the machine itself nothing has to be done and the address
stays as it is. Otherwise the call goes to a trampoline, which stands for a function and a way of
calling it.

A trampoline is made for each pair of a function and a way of calling it, once, and stays.

Whoever runs code may bring a way of redirecting calls of its own (`Redirecting`); the two above are
those of this library (`Redirector`).
-/

namespace CodeReloc

/-- The way in which a function is called. -/
inductive CallType where
  | builtin
  | builtinCompare
  | builtinFpFp
  | builtinFp
  | builtinFpInt
  | directApi
  | profilingApi
  | directGetter
  | profilingGetter
  deriving DecidableEq, Repr

namespace CallType

/-- All ways of calling a function. -/
def all : List CallType :=
  [builtin, builtinCompare, builtinFpFp, builtinFp, builtinFpInt, directApi, profilingApi,
    directGetter, profilingGetter]

/-- The identifier of a way of calling a function. -/
def label : CallType → String
  | builtin => "BuiltinCall"
  | builtinCompare => "BuiltinCompareCall"
  | builtinFpFp => "BuiltinFpFpCall"
  | builtinFp => "BuiltinFpCall"
  | builtinFpInt => "BuiltinFpIntCall"
  | directApi => "DirectApiCall"
  | profilingApi => "ProfilingApiCall"
  | directGetter => "DirectGetterCall"
  | profilingGetter => "ProfilingGetterCall"

end CallType

/-- A way of redirecting calls, with what it remembers of them. -/
class Redirecting (ρ : Type) where
  /-- Redirects calls of a function. -/
  redirect : ρ → Address → CallType → Address × ρ
  /-- What a redirected address stands for. Not every way of redirecting calls can tell. -/
  resolve : ρ → Address → Option (Address × CallType) := fun _ _ => none

/-- The library's own ways of redirecting calls. -/
inductive Redirector where
  /-- Not at all. -/
  | direct
  /-- By trampolines, in the order in which they were made. -/
  | trampolines (runtime : Nat) (made : List (Address × CallType))
  deriving DecidableEq, Repr

namespace Redirector

/-- Redirects calls of a function. -/
def redirect (r : Redirector) (function : Address) (callType : CallType) : Address × Redirector :=
  match r with
  | direct => (function, direct)
  | trampolines runtime made =>
    match made.findIdx? (· == (function, callType)) with
    | some index => (.within (.stub runtime index) 0, r)
    | none =>
      (.within (.stub runtime made.length) 0, trampolines runtime (made ++ [(function, callType)]))

/-- What a trampoline stands for. -/
def resolve (r : Redirector) (address : Address) : Option (Address × CallType) :=
  match r, address with
  | trampolines runtime made, .within (.stub owner index) 0 =>
    if owner = runtime then made[index]? else none
  | _, _ => none

/-- The trampolines made so far. -/
def size : Redirector → Nat
  | direct => 0
  | trampolines _ made => made.length

end Redirector

instance : Redirecting Redirector := ⟨Redirector.redirect, Redirector.resolve⟩

end CodeReloc
