import CodeReloc.Code.Host

set_option autoImplicit false

/-!
# Consistency of code and heap

Every record makes a demand on what it refers to: an embedded object or a cell is an object of the
heap, a code target is the first instruction of a code object, an internal reference stays inside
the code object it lies in, an age sequence is young or calls code. `Record.check` names the first
demand that is not met, and `Code.verify` goes through the records of code until one of them has
such a demand.
-/

namespace CodeReloc

/-- A demand of a record that is not met. -/
inductive Inconsistency where
  | nullTarget (pc : UInt64) (mode : Mode)
  | notHeapObject (pc : UInt64) (mode : Mode) (target : UInt64)
  | codeObjectNotFound (pc target : UInt64)
  | notInstructionStart (pc target start : UInt64)
  | hostCodeNotFound (pc : UInt64)
  | internalReferenceOutOfRange (pc target start stop : UInt64)
  | codeAgeStubNotCode (pc : UInt64)
  deriving DecidableEq, Repr

namespace Inconsistency

/-- The identifier of an inconsistency. -/
def label : Inconsistency → String
  | nullTarget .. => "NullTarget"
  | notHeapObject .. => "NotHeapObject"
  | codeObjectNotFound .. => "CodeObjectNotFound"
  | notInstructionStart .. => "NotInstructionStart"
  | hostCodeNotFound .. => "HostCodeNotFound"
  | internalReferenceOutOfRange .. => "InternalReferenceOutOfRange"
  | codeAgeStubNotCode .. => "CodeAgeStubNotCode"

/-- The text of an inconsistency. -/
def message : Inconsistency → String
  | nullTarget pc mode => s!"{mode.name} at {hexAddress pc.toNat} has a null target"
  | notHeapObject pc mode target =>
    s!"{mode.name} at {hexAddress pc.toNat} targets {hexAddress target.toNat}, "
      ++ "which is not a heap object"
  | codeObjectNotFound pc target =>
    s!"Code target at {hexAddress pc.toNat} points at {hexAddress target.toNat}, "
      ++ "outside any code object"
  | notInstructionStart pc target start =>
    s!"Code target at {hexAddress pc.toNat} points at {hexAddress target.toNat}, "
      ++ s!"expected instruction start {hexAddress start.toNat}"
  | hostCodeNotFound pc =>
    s!"Internal reference at {hexAddress pc.toNat} is not inside a code object"
  | internalReferenceOutOfRange pc target start stop =>
    s!"Internal reference at {hexAddress pc.toNat} targets {hexAddress target.toNat}, "
      ++ s!"outside {hexAddress start.toNat}..={hexAddress stop.toNat}"
  | codeAgeStubNotCode pc =>
    s!"Code age sequence at {hexAddress pc.toNat} is old but its age stub is not code"

/-- The text of an inconsistency as the result of a whole verification. -/
def report (i : Inconsistency) : String := s!"Relocation verification failed: {i.message}"

end Inconsistency

namespace Record

/-- The demand on a pointer into the heap. -/
def checkPointer (host : Host) (r : Record) (target : UInt64) : Option Inconsistency :=
  if target = 0 then some (.nullTarget r.pc r.mode)
  else if host.isObject target then none
  else some (.notHeapObject r.pc r.mode target)

/-- The demand on a code target. -/
def checkCodeTarget (host : Host) (r : Record) : Option Inconsistency :=
  let target := host.callTarget r
  if target = 0 then some (.nullTarget r.pc r.mode)
  else
    match host.codeAround target with
    | none => some (.codeObjectNotFound r.pc target)
    | some code =>
      if code.start = target then none
      else some (.notInstructionStart r.pc target code.start)

/-- The demand on an internal reference. -/
def checkInternal (host : Host) (r : Record) : Option Inconsistency :=
  let target := host.internalTarget r
  match host.codeAround r.pc with
  | none => some (.hostCodeNotFound r.pc)
  | some code =>
    if code.reaches target then none
    else some (.internalReferenceOutOfRange r.pc target code.start code.stop)

/-- The demand on an age sequence. -/
def checkAge (host : Host) (r : Record) : Option Inconsistency :=
  if host.isYoung r.pc || host.stubIsCode r.pc then none
  else some (.codeAgeStubNotCode r.pc)

/-- The demand of a record, if it is not met. -/
def check (host : Host) (r : Record) : Except Fault (Option Inconsistency) :=
  match r.mode with
  | .embeddedObject => .ok (r.checkPointer host (host.objectTarget r))
  | .cell => .ok (r.checkPointer host (host.cellTarget r))
  | .codeTarget => .ok (r.checkCodeTarget host)
  | .codeTargetWithId => .ok (r.checkCodeTarget host)
  | .constructCall => .ok (r.checkCodeTarget host)
  | .debuggerStatement => .ok (r.checkCodeTarget host)
  | .internalReference => .ok (r.checkInternal host)
  | .internalReferenceEncoded => .ok (r.checkInternal host)
  | .codeAgeSequence => .ok (r.checkAge host)
  | .pcJump => .error .jumpYielded
  | _ => .ok none

/-- The first demand of a list of records that is not met. -/
def checkAll (host : Host) : List Record → Except Fault (Option Inconsistency)
  | [] => .ok none
  | r :: rest => do
    match ← r.check host with
    | some i => return some i
    | none => checkAll host rest

end Record

namespace Code

/-- The first demand of a record of the code that is not met. A record is looked at when the reader
leaves it behind. -/
def verify (c : Code) (host : Host) : Except Fault (Option Inconsistency) := do
  let w := c.walk .all
  match ← Record.checkAll host w.delivered with
  | some i => return some i
  | none =>
    match w.stopped with
    | none => return none
    | some fault => throw fault

end Code

end CodeReloc
