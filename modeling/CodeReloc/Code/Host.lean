import CodeReloc.Code.Basic
import CodeReloc.Hex

set_option autoImplicit false

/-!
# What is known about the heap

A record says that something lies at a place, but not what the instructions there refer to. A host
answers that, for records, addresses and reasons. Its answers depend on nothing but the question.
-/

namespace CodeReloc

/-- Answers about code and heap. -/
structure Host where
  /-- What a code target or a runtime entry calls. -/
  callTarget : Record → UInt64
  /-- The object in the code. -/
  objectTarget : Record → UInt64
  /-- The cell in the code. -/
  cellTarget : Record → UInt64
  /-- Where an internal reference points. -/
  internalTarget : Record → UInt64
  /-- Where an external reference points. -/
  externalTarget : Record → UInt64
  /-- The code object around an address. -/
  codeAround : UInt64 → Option Region
  isObject : UInt64 → Bool
  /-- Whether the age sequence at an address is young. -/
  isYoung : UInt64 → Bool
  /-- Whether the age sequence at an address calls code. -/
  stubIsCode : UInt64 → Bool
  /-- The kind of code that begins at an address. -/
  kindOfCode : UInt64 → Option String
  /-- A short text for an object. -/
  objectText : UInt64 → String
  /-- The name of an external reference. -/
  referenceName : UInt64 → Option String
  /-- The name of a deopt reason. -/
  reasonName : Int64 → Option String
  /-- The number of the eager bailout that an address enters. -/
  bailoutId : UInt64 → Option Int32

/-- The host knows no names, and describes an object by its address. -/
def Host.nameless (h : Host) : Host :=
  { h with
    kindOfCode := fun _ => none
    objectText := fun address => hexAddress address.toNat
    referenceName := fun _ => none
    reasonName := fun _ => none
    bailoutId := fun _ => none }

end CodeReloc
