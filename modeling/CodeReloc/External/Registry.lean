import CodeReloc.External.ConstantSet
import CodeReloc.External.Trampoline

set_option autoImplicit false

/-!
# What a runtime registers for code

A registry holds what the code of one runtime may refer to: functions with their numbers, and
builtins with their names as well, a block of data whose cells code reads and writes in place, an
array of roots, a way of redirecting calls, and a set of constants that the runtime may share with
others.

Functions are registered one after the other. Where a number, a name or an address was registered
several times, the last registration is the one that is found.

`Registry.nameOf` finds the name of an address that the runtime knows.
-/

namespace CodeReloc

/-- A function of the runtime. -/
structure RuntimeFunction where
  id : UInt32
  name : String
  entry : Address
  /-- How many arguments it takes; negative if that varies. -/
  arity : Int32
  deriving DecidableEq, Repr

/-- A piece of code with a number and a name: a builtin, which belongs to the runtime, or a function
of its surroundings. -/
structure Routine where
  id : UInt32
  name : String
  address : Address
  deriving DecidableEq, Repr

/-- A field of the data that code reads or writes. -/
inductive RuntimeField where
  | stackLimit
  | realStackLimit
  | regexpStackLimit
  | newSpaceStart
  | newSpaceMask
  | newSpaceAllocationTop
  | newSpaceAllocationLimit
  | oldSpaceAllocationTop
  | oldSpaceAllocationLimit
  | storeBufferTop
  | handleScopeNext
  | handleScopeLimit
  | handleScopeLevel
  | scheduledException
  | pendingMessageObject
  | isProfiling
  | debugIsActive
  | dateCacheStamp
  | stressDeoptCount
  | allocationSitesList
  deriving DecidableEq, Repr

namespace RuntimeField

/-- All fields, in the order of their cells. -/
def all : List RuntimeField :=
  [stackLimit, realStackLimit, regexpStackLimit, newSpaceStart, newSpaceMask,
    newSpaceAllocationTop, newSpaceAllocationLimit, oldSpaceAllocationTop,
    oldSpaceAllocationLimit, storeBufferTop, handleScopeNext, handleScopeLimit,
    handleScopeLevel, scheduledException, pendingMessageObject, isProfiling, debugIsActive,
    dateCacheStamp, stressDeoptCount, allocationSitesList]

/-- The place of a field among all fields. -/
def index (f : RuntimeField) : Nat := all.idxOf f

/-- The name of a field. -/
def name : RuntimeField → String
  | stackLimit => "StackLimit"
  | realStackLimit => "RealStackLimit"
  | regexpStackLimit => "RegexpStackLimit"
  | newSpaceStart => "NewSpaceStart"
  | newSpaceMask => "NewSpaceMask"
  | newSpaceAllocationTop => "NewSpaceAllocationTop"
  | newSpaceAllocationLimit => "NewSpaceAllocationLimit"
  | oldSpaceAllocationTop => "OldSpaceAllocationTop"
  | oldSpaceAllocationLimit => "OldSpaceAllocationLimit"
  | storeBufferTop => "StoreBufferTop"
  | handleScopeNext => "HandleScopeNext"
  | handleScopeLimit => "HandleScopeLimit"
  | handleScopeLevel => "HandleScopeLevel"
  | scheduledException => "ScheduledException"
  | pendingMessageObject => "PendingMessageObject"
  | isProfiling => "IsProfiling"
  | debugIsActive => "DebugIsActive"
  | dateCacheStamp => "DateCacheStamp"
  | stressDeoptCount => "StressDeoptCount"
  | allocationSitesList => "AllocationSitesList"

end RuntimeField

/-- A slot of the table of addresses, for frames and handlers. -/
inductive AddressId where
  | handler
  | cEntryFp
  | cFunction
  | context
  | pendingException
  | pendingHandlerContext
  | pendingHandlerCode
  | pendingHandlerOffset
  | pendingHandlerFp
  | pendingHandlerSp
  | externalCaughtException
  | jsEntrySp
  deriving DecidableEq, Repr

namespace AddressId

/-- All slots, in the order of their cells. -/
def all : List AddressId :=
  [handler, cEntryFp, cFunction, context, pendingException, pendingHandlerContext,
    pendingHandlerCode, pendingHandlerOffset, pendingHandlerFp, pendingHandlerSp,
    externalCaughtException, jsEntrySp]

/-- The place of a slot in the table. -/
def index (id : AddressId) : Nat := all.idxOf id

/-- The name of a slot. -/
def name : AddressId → String
  | handler => "Handler"
  | cEntryFp => "CEntryFp"
  | cFunction => "CFunction"
  | context => "Context"
  | pendingException => "PendingException"
  | pendingHandlerContext => "PendingHandlerContext"
  | pendingHandlerCode => "PendingHandlerCode"
  | pendingHandlerOffset => "PendingHandlerOffset"
  | pendingHandlerFp => "PendingHandlerFp"
  | pendingHandlerSp => "PendingHandlerSp"
  | externalCaughtException => "ExternalCaughtException"
  | jsEntrySp => "JsEntrySp"

end AddressId

/-- Everything of a runtime that addresses in code are derived from. -/
structure Registry (ρ : Type := Redirector) where
  /-- What tells this runtime from others. -/
  id : Nat
  /-- What was registered, in order. -/
  functions : List RuntimeFunction
  builtins : List Routine
  /-- The functions of the surroundings. -/
  cFunctions : List Routine
  redirector : ρ
  /-- The set of constants that belongs to the runtime. -/
  constants : Nat
  /-- The cells of the fields. -/
  fields : Array UInt64
  /-- The cells of the table of addresses. -/
  slots : Array UInt64
  roots : Array UInt64
  deriving DecidableEq, Repr

namespace Registry

variable {ρ : Type}

/-- The registry of a runtime whose cells are all zero. -/
def new (id : Nat) (functions : List RuntimeFunction) (builtins cFunctions : List Routine)
    (redirector : ρ) (constants rootCount : Nat) : Registry ρ :=
  ⟨id, functions, builtins, cFunctions, redirector, constants,
    Array.replicate RuntimeField.all.length 0, Array.replicate AddressId.all.length 0,
    Array.replicate rootCount 0⟩

/-! ## Look-ups -/

/-- The last element of a list with a property. -/
def findLast? {α : Type} (p : α → Bool) (l : List α) : Option α := l.reverse.find? p

/-- The function registered under a number. -/
def function (r : Registry ρ) (id : UInt32) : Except LookupError RuntimeFunction :=
  match findLast? (fun f => f.id == id) r.functions with
  | some f => .ok f
  | none => .error (.unknownRuntimeFunction id)

/-- The builtin registered under a number. -/
def builtin (r : Registry ρ) (id : UInt32) : Except LookupError Routine :=
  match findLast? (fun b => b.id == id) r.builtins with
  | some b => .ok b
  | none => .error (.unknownBuiltin id)

/-- The builtin registered under a name. -/
def builtinNamed (r : Registry ρ) (name : String) : Except LookupError Routine :=
  match findLast? (fun b => b.name == name) r.builtins with
  | some b => .ok b
  | none => .error (.unknownBuiltinName name)

/-- The function of the surroundings registered under a number. -/
def cFunction (r : Registry ρ) (id : UInt32) : Except LookupError Routine :=
  match findLast? (fun f => f.id == id) r.cFunctions with
  | some f => .ok f
  | none => .error (.unknownCFunction id)

/-! ## Places -/

/-- Where the data of the runtime begins, with a cell that holds nothing. -/
def dataAddress (r : Registry ρ) : Address := .within (.data r.id) 0

/-- The cell of a field. -/
def fieldAddress (r : Registry ρ) (f : RuntimeField) : Address :=
  .within (.data r.id) (cellSize * (1 + f.index))

/-- The cell of a slot of the table of addresses. -/
def slotAddress (r : Registry ρ) (id : AddressId) : Address :=
  .within (.data r.id) (cellSize * (1 + RuntimeField.all.length + id.index))

/-- Where the roots begin. Without roots there is no such memory, and the address is the least one
that a cell could have. -/
def rootsAddress (r : Registry ρ) : Address :=
  if r.roots.isEmpty then .absolute (UInt64.ofNat cellSize) else .within (.roots r.id) 0

/-- Where a constant of the runtime lies. -/
def doubleAddress (r : Registry ρ) (c : DoubleConstant) : Address :=
  ConstantSet.doubleAddress r.constants c

/-- Redirects calls of a function. -/
def redirect [Redirecting ρ] (r : Registry ρ) (function : Address) (callType : CallType) :
    Address × Registry ρ :=
  let (address, redirector) := Redirecting.redirect r.redirector function callType
  (address, { r with redirector := redirector })

/-! ## Cells -/

/-- The value of a field. -/
def load (r : Registry ρ) (f : RuntimeField) : UInt64 := r.fields[f.index]?.getD 0

/-- Sets a field. -/
def store (r : Registry ρ) (f : RuntimeField) (value : UInt64) : Registry ρ :=
  { r with fields := r.fields.setIfInBounds f.index value }

/-- The value of a slot. -/
def loadSlot (r : Registry ρ) (id : AddressId) : UInt64 := r.slots[id.index]?.getD 0

/-- Sets a slot. -/
def storeSlot (r : Registry ρ) (id : AddressId) (value : UInt64) : Registry ρ :=
  { r with slots := r.slots.setIfInBounds id.index value }

/-- The value of a root. -/
def loadRoot? (r : Registry ρ) (index : Nat) : Option UInt64 := r.roots[index]?

/-- Sets a root. -/
def storeRoot (r : Registry ρ) (index : Nat) (value : UInt64) : Registry ρ :=
  { r with roots := r.roots.setIfInBounds index value }

/-- The bits in a cell of the runtime. A trampoline begins with the function it stands for. -/
def read (r : Registry) (a : Address) : Option UInt64 :=
  match a with
  | .within (.data id) offset =>
    if id = r.id ∧ offset % cellSize = 0 then
      (#[0] ++ r.fields ++ r.slots)[offset / cellSize]?
    else
      none
  | .within (.roots id) offset =>
    if id = r.id ∧ offset % cellSize = 0 then r.roots[offset / cellSize]? else none
  | a =>
    match r.redirector.resolve a with
    | some (.absolute function, _) => some function
    | _ => none

/-! ## Names -/

/-- The function that an address stands for, be it redirected or not. -/
def targetOf [Redirecting ρ] (r : Registry ρ) (address : Address) : Address :=
  match Redirecting.resolve r.redirector address with
  | some (function, _) => function
  | none => address

/-- The runtime function that is entered at an address, be it redirected or not. -/
def functionAt? [Redirecting ρ] (r : Registry ρ) (address : Address) : Option RuntimeFunction :=
  findLast? (fun f => f.entry == r.targetOf address) r.functions

/-- The name of what was registered under an address. -/
def registeredName? [Redirecting ρ] (r : Registry ρ) (address : Address) : Option String :=
  match r.functionAt? address with
  | some f => some s!"Runtime::{f.name}"
  | none =>
    let target := r.targetOf address
    match findLast? (fun b => b.address == target) r.builtins with
    | some b => some s!"Builtin::{b.name}"
    | none => (findLast? (fun f => f.address == target) r.cFunctions).map Routine.name

/-- The places of the runtime that have names, in the order in which they are tried. -/
def places (r : Registry ρ) : List (Address × String) :=
  [(r.dataAddress, "runtime_data")]
    ++ RuntimeField.all.map (fun f => (r.fieldAddress f, s!"RuntimeField::{f.name}"))
    ++ AddressId.all.map (fun id => (r.slotAddress id, s!"AddressId::{id.name}"))
    ++ (if r.roots.isEmpty then [] else [(r.rootsAddress, "roots_array_start")])
    ++ DoubleConstant.all.map (fun c => (r.doubleAddress c, s!"LDoubleConstant::{c.name}"))

/-- The name of an address that the runtime knows. What was registered comes before the places of
the runtime itself. -/
def nameOf [Redirecting ρ] (r : Registry ρ) (address : Address) : Option String :=
  match r.registeredName? address with
  | some name => some name
  | none => (r.places.find? fun place => place.1 == address).map Prod.snd

/-- The text of an address, with the name that the runtime knows. -/
def display [Redirecting ρ] (r : Registry ρ) (address : Address) : String :=
  match r.functionAt? address with
  | some f => s!"{address.text} <{f.name}.entry>"
  | none =>
    match r.nameOf address with
    | some name => s!"{address.text} ({name})"
    | none => address.text

/-- The runtime as text. -/
def text (r : Registry ρ) (constants : ConstantSet) : String :=
  s!"RuntimeContext \x7b runtime_functions: {r.functions.length}, builtins: {r.builtins.length}, "
    ++ s!"c_functions: {r.cFunctions.length}, constants: {constants.text} \x7d"

end Registry

end CodeReloc
