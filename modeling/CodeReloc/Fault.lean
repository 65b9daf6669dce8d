import CodeReloc.Mode

set_option autoImplicit false

/-!
# Broken contracts

Every operation of the library states what it asks of its caller. A call that asks for something
outside that contract ends in a fault, and nothing is promised about what it was working on.
Most faults have no text of their own; the others say which rule was broken.

Running out of room is no fault: it is an answer that the caller is expected to handle
(`LimitExceeded`).
-/

namespace CodeReloc

/-- Why a call was outside its contract. -/
inductive Fault where
  /-- Records of this mode have no encoding. -/
  | unencodable (mode : Mode)
  /-- A record lies before the one written last. -/
  | pcBackwards
  /-- A deopt reason needs more bits than a record has for it. -/
  | reasonTooWide (reason : Int64)
  /-- An id or a position needs more than 32 bits. -/
  | dataTooWide (mode : Mode) (data : Int64)
  /-- A negative position was announced. -/
  | invalidPosition (position : Int32)
  /-- An entry was added to a pool that is already part of the code. -/
  | poolEmitted
  /-- A mode byte of a stream names no mode. -/
  | invalidMode (code : Nat)
  /-- A pc jump was taken for a record. -/
  | jumpYielded
  /-- Any other breach: an index out of range, an overflow, a bad argument. -/
  | breach
  deriving DecidableEq, Repr, Inhabited

namespace Fault

/-- The text of a fault, for those that have one. -/
def message? : Fault → Option String
  | unencodable mode => some s!"mode {mode.label} cannot be encoded"
  | pcBackwards => some "pc went backwards"
  | reasonTooWide reason => some s!"deopt reason {reason.toInt} does not fit"
  | dataTooWide mode data => some s!"{mode.name} data {data.toInt} does not fit 32 bits"
  | invalidPosition position => some s!"invalid position {position.toInt}"
  | poolEmitted => some "constant pool already emitted"
  | invalidMode code => some s!"invalid relocation mode {code}"
  | jumpYielded => some "pc jump is never yielded"
  | breach => none

end Fault

/-- A contract that is checked: the fault arises exactly when the condition fails. -/
def require (holds : Bool) (fault : Fault) : Except Fault Unit :=
  if holds then .ok () else .error fault

@[simp] theorem require_eq_ok {holds : Bool} {fault : Fault} :
    require holds fault = .ok () ↔ holds = true := by
  cases holds <;> simp [require]

/-- A sequence of two calls answers exactly when both do. -/
theorem bind_eq_ok {α β : Type} {x : Except Fault α} {f : α → Except Fault β} {b : β} :
    x >>= f = .ok b ↔ ∃ a, x = .ok a ∧ f a = .ok b := by
  cases x with
  | error fault => simp [bind, Except.bind]
  | ok a => simp [bind, Except.bind]

/-- A sequence of two calls faults in its first part or, once that has answered, in its second. -/
theorem bind_eq_error {α β : Type} {x : Except Fault α} {f : α → Except Fault β} {fault : Fault} :
    x >>= f = .error fault ↔ x = .error fault ∨ ∃ a, x = .ok a ∧ f a = .error fault := by
  cases x with
  | error other => simp [bind, Except.bind]
  | ok a => simp [bind, Except.bind]

/-- A call behind a contract answers exactly when the contract is kept and the call does. -/
theorem require_bind_eq_ok {β : Type} {holds : Bool} {fault : Fault} {f : Unit → Except Fault β}
    {b : β} : require holds fault >>= f = .ok b ↔ holds = true ∧ f () = .ok b := by
  cases holds with
  | false => simp [require, bind, Except.bind]
  | true => simp [require, bind, Except.bind]

/-- A call behind a contract faults for the contract or, where that is kept, by itself. -/
theorem require_bind_eq_error {β : Type} {holds : Bool} {broken fault : Fault}
    {f : Unit → Except Fault β} :
    require holds broken >>= f = .error fault ↔
      (holds = false ∧ broken = fault) ∨ (holds = true ∧ f () = .error fault) := by
  cases holds with
  | false => simp [require, bind, Except.bind]
  | true => simp [require, bind, Except.bind]

/-- A code buffer would have to grow beyond its limit. -/
structure LimitExceeded where
  /-- The size that was asked for. -/
  requested : Nat
  /-- The largest size that is allowed. -/
  limit : Nat
  deriving DecidableEq, Repr

/-- The text of the answer. -/
def LimitExceeded.message (e : LimitExceeded) : String :=
  s!"Code buffer limit exceeded: requested {e.requested} bytes, limit {e.limit}"

end CodeReloc
