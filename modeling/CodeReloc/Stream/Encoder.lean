import CodeReloc.Record
import CodeReloc.Wire

set_option autoImplicit false

/-!
# From records to bytes

A stream holds records by differences: the place of a record as its distance from the record
before it, an id as its difference from the last id, a source position as its difference from the
last position of either kind. An encoder is the state these differences are taken against, and
`Encoder.add` turns one record into the bytes that stand for it, in the order in which they are
read back.

A record has a short form when its difference fits six bits and a long form otherwise. A distance
of more than six bits is brought down to six by a pc jump in front of the record.

A position record is not written at once. It is held back until a record of another mode or a
record at another place follows, so that of several positions at one place only the last one
reaches the stream.
-/

namespace CodeReloc

open Wire

/-! ## Forms of a record -/

/-- The chunks of a jump, lowest digits first, with the mark on the last one. -/
def jumpChunks (n : Nat) : List UInt8 :=
  if n < 128 then [lastChunk n] else chunk n :: jumpChunks (n / 128)
termination_by n

/-- What stands in front of a record to bring its distance down to six bits. -/
def jumpBytes (distance : Nat) : List UInt8 :=
  if distance < 64 then [] else pack Mode.pcJump.code Tag.long.code :: jumpChunks (distance / 64)

/-- A jump if one is needed, and a first byte with a tag and the rest of the distance. -/
def shortForm (distance : Nat) (tag : Tag) : List UInt8 :=
  jumpBytes distance ++ [pack (distance % 64) tag.code]

/-- A short form with a data byte. -/
def locatableForm (distance : Nat) (kind : ShortKind) (data : Int32) : List UInt8 :=
  shortForm distance .locatable ++ [shortDataByte data kind]

/-- A jump if one is needed, a mode byte and a pc byte with the rest of the distance. -/
def longForm (distance : Nat) (mode : Mode) : List UInt8 :=
  jumpBytes distance ++ [pack mode.code Tag.long.code, UInt8.ofNat (distance % 64)]

/-- The four bytes of a payload. -/
def intBytes (value : Int32) : List UInt8 := leBytes intSize value.toUInt32.toNat

/-- The eight bytes of a payload. -/
def pointerBytes (value : Int64) : List UInt8 := leBytes pointerSize value.toUInt64.toNat

/-- A difference in the shorter of its two forms. -/
def deltaForm (distance : Nat) (mode : Mode) (kind : ShortKind) (delta : Int32) : List UInt8 :=
  if inSigned delta.toInt64 shortDataBits then
    locatableForm distance kind delta
  else
    longForm distance mode ++ intBytes delta

/-! ## The state of an encoder -/

/-- A position record that is held back: its distance and its difference. -/
structure HeldPosition where
  distance : Nat
  delta : Int32
  deriving DecidableEq, Repr

/-- What the next record is written against. -/
structure Encoder where
  lastPc : UInt64
  lastId : Int32
  lastPosition : Int32
  lastMode : Option Mode
  held : Option HeldPosition
  deriving DecidableEq, Repr

namespace Encoder

/-- Before the first record. -/
def start : Encoder := ⟨0, 0, 0, none, none⟩

/-- The bytes of the position that is held back. -/
def heldBytes (e : Encoder) : List UInt8 :=
  match e.held with
  | none => []
  | some held => deltaForm held.distance .position .position held.delta

/-- The state after the position that is held back has been written. -/
def release (e : Encoder) : Encoder := { e with held := none }

/-- How far a record lies behind the last one. The record must have a mode that can be written,
must not lie before the last one, and must be less than `2 ^ 32` away. -/
def distanceTo (e : Encoder) (r : Record) : Except Fault Nat := do
  require r.mode.isWritable (.unencodable r.mode)
  require (e.lastPc ≤ r.pc) .pcBackwards
  let distance := r.pc.toNat - e.lastPc.toNat
  require (distance < 2 ^ 32) .breach
  return distance

end Encoder

/-- The data of an id or a position, which has to be a 32-bit number. -/
def Record.word (r : Record) : Except Fault Int32 := do
  require (inSigned r.data 32) (.dataTooWide r.mode r.data)
  return r.data.toInt32

namespace Encoder

/-- The bytes of one record and the state after it. For a record that is no position, the position
that is held back has to be released before. -/
def add (e : Encoder) (r : Record) : Except Fault (List UInt8 × Encoder) := do
  let distance ← e.distanceTo r
  let next := { e with lastPc := r.pc, lastMode := some r.mode }
  match r.mode with
  | .embeddedObject => return (shortForm distance .embeddedObject, next)
  | .codeTarget => return (shortForm distance .codeTarget, next)
  | .codeTargetWithId =>
    let id ← r.word
    return (deltaForm distance r.mode .codeWithId (id - e.lastId), { next with lastId := id })
  | .deoptReason =>
    require (inUnsigned r.data shortDataBits) (.reasonTooWide r.data)
    return (locatableForm distance .deoptReason r.data.toInt32, next)
  | .statementPosition =>
    let position ← r.word
    return (deltaForm distance r.mode .statementPosition (position - e.lastPosition),
      { next with lastPosition := position })
  | .position =>
    let position ← r.word
    let delta := position - e.lastPosition
    let next := { next with lastPosition := position }
    if distance ≠ 0 ∨ e.lastMode ≠ some .position then
      -- A position at a new place ends the run of the one before it.
      return (e.heldBytes, { next with held := some ⟨distance, delta⟩ })
    else
      let held := e.held.getD ⟨0, 0⟩
      return ([], { next with held := some { held with delta := held.delta + delta } })
  | mode =>
    let payload :=
      match mode.payload with
      | .none => []
      | .int => intBytes r.data.toInt32
      | .pointer => pointerBytes r.data
    return (longForm distance mode ++ payload, next)

end Encoder

end CodeReloc
