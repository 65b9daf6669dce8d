import CodeReloc.Assembler.Basic
import CodeReloc.ConstantPool.Basic

set_option autoImplicit false

/-!
# Laying out a pool

A pool is emitted once, at the end of the instructions. The slots come in four groups: regular
doubles, regular pointers, overflowed doubles, overflowed pointers. As soon as the slot of a
constant is in place, the load that uses it is patched with the offset of the slot from the start of
the pool. A merged constant has no slot of its own, and its load is patched with the offset of the
slot it shares. How a load is patched is up to the user of the pool (`Patcher`), and may depend on
what was patched before; a log is kept of the patches asked for.

When the buffer is exhausted on the way, the slots and patches made up to then remain.
-/

namespace CodeReloc

/-- The change of one load, once the offset of its constant is known. -/
structure Patch where
  /-- Where the load lies in the code. -/
  position : Nat
  /-- How far the constant lies from the start of the pool. -/
  offset : Nat
  access : Access
  type : EntryType
  deriving DecidableEq, Repr

/-- How a patch changes the instructions, and what is remembered for the next one. -/
abbrev Patcher (σ : Type) := Patch → σ → Assembler → σ × Assembler

/-- A pool on its way into the code. -/
structure Emission (σ : Type) where
  pool : ConstantPool
  assembler : Assembler
  /-- What the patcher remembers. -/
  state : σ
  /-- The patches that were asked for. -/
  patches : Array Patch

/-- A step of an emission. -/
abbrev Emitting (σ : Type) := ExceptT LimitExceeded (StateT (Emission σ) (Except Fault))

namespace Emission

variable {σ : Type}

/-- A step that is done by the assembler. -/
def assemble {α : Type} (x : Assembly α) : Emitting σ α :=
  fun ⟨pool, assembler, state, patches⟩ => do
    let (answer, assembler) ← x assembler
    return (answer, ⟨pool, assembler, state, patches⟩)

/-- Patches a load. -/
def patch (patcher : Patcher σ) (change : Patch) : Emitting σ Unit :=
  fun ⟨pool, assembler, state, patches⟩ =>
    let (state, assembler) := patcher change state assembler
    return (.ok (), ⟨pool, assembler, state, patches.push change⟩)

/-- The end of the instructions. -/
def here : Emitting σ Nat := do
  let e ← get
  return e.assembler.pc

/-- The pool as it stands. -/
def currentPool : Emitting σ ConstantPool := do
  let e ← get
  return e.pool

/-- Marks the pool as part of the code from `base` on. -/
def beginAt (base : Nat) : Emitting σ Unit :=
  modify fun ⟨pool, assembler, state, patches⟩ =>
    ⟨{ pool with emittedAt := some base }, assembler, state, patches⟩

/-- A regular load must reach its slot. -/
def checkReach (s : PoolSection) (access : Access) (offset : Nat) : Except Fault Unit :=
  match access with
  | .overflowed => return ()
  | .regular => do
    let fits ← ConstantPool.reaches offset s.reach
    require fits .breach

/-- Lays out the slots that may be shared. Answers their offsets. -/
def shared (patcher : Patcher σ) (base : Nat) (type : EntryType) (s : PoolSection) :
    List PoolEntry → Array Nat → Emitting σ (Array Nat)
  | [], offsets => return offsets
  | e :: rest, offsets => do
    let offset := (← here) - base
    assemble (Assembler.emitWord64 e.value)
    checkReach s .regular offset
    patch patcher ⟨e.position, offset, .regular, type⟩
    shared patcher base type s rest (offsets.push offset)

/-- Lays out the slots of a group, beside those that are shared, and patches the loads of merged
constants. -/
def group (patcher : Patcher σ) (base : Nat) (type : EntryType) (s : PoolSection)
    (offsets : Array Nat) (access : Access) : List PoolEntry → Emitting σ Unit
  | [] => return ()
  | e :: rest => do
    match e.slot with
    | none =>
      let offset := (← here) - base
      assemble (Assembler.emitWord64 e.value)
      checkReach s access offset
      patch patcher ⟨e.position, offset, access, type⟩
    | some slot =>
      let offset := offsets[slot]?.getD 0
      checkReach s .regular offset
      patch patcher ⟨e.position, offset, .regular, type⟩
    group patcher base type s offsets access rest

/-- Lays out the regular constants of a type. Answers the offsets of its shared slots. -/
def regular (patcher : Patcher σ) (base : Nat) (type : EntryType) (s : PoolSection) :
    Emitting σ (Array Nat) := do
  let offsets ← shared patcher base type s s.shared.toList #[]
  group patcher base type s offsets .regular
    (s.entries.toList.take (s.overflowStart.getD s.entries.size))
  return offsets

/-- Lays out the overflowed constants of a type. -/
def overflowed (patcher : Patcher σ) (base : Nat) (type : EntryType) (s : PoolSection)
    (offsets : Array Nat) : Emitting σ Unit :=
  group patcher base type s offsets .overflowed
    (s.entries.toList.drop (s.overflowStart.getD s.entries.size))

/-- Lays out all constants from `base` on. -/
def layOut (patcher : Patcher σ) (base : Nat) (p : ConstantPool) : Emitting σ Unit := do
  let doubleOffsets ← regular patcher base .double p.doubles
  let pointerOffsets ← regular patcher base .intPtr p.intPtrs
  if p.doubles.overflows then
    assemble (Assembler.align 8)
    overflowed patcher base .double p.doubles doubleOffsets
  if p.intPtrs.overflows then
    overflowed patcher base .intPtr p.intPtrs pointerOffsets

/-- Makes the pool a part of the code, if it is not yet one. Answers where it begins, unless it is
empty. -/
def emit (patcher : Patcher σ) : Emitting σ (Option Nat) := do
  let p ← currentPool
  if !p.isEmitted then
    if !p.isEmpty then
      assemble (Assembler.align 8)
    let base ← here
    beginAt base
    if !p.isEmpty then
      layOut patcher base p
  let p ← currentPool
  return if p.isEmpty then none else p.emittedAt

end Emission

end CodeReloc
