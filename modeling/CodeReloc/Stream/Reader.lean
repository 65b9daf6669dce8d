import CodeReloc.Buffer
import CodeReloc.Stream.Cursor

set_option autoImplicit false

/-!
# Walking a stream

A reader stands on a record of a wanted mode or is done. It may be given the place of a code age
sequence, which it then reports as one more record after the last one of the stream.

`Reader.walk` lists the records that a reader stands on until it is done or meets a fault, and
`Walk.delivered` those that it has left behind as well.

Main statement: `measure_of_advance`, so that every walk ends.
-/

namespace CodeReloc

/-- A place in a stream, with the record found there. -/
structure Reader where
  cursor : Cursor
  /-- The modes that are wanted. -/
  mask : Mask
  /-- The place of a code age sequence that is still to be reported. -/
  age : Option UInt64
  /-- The record that the reader stands on; none when it is done. -/
  current : Option Record
  deriving DecidableEq, Repr

namespace Reader

/-- Goes on to the next wanted record. At the end of the stream the code age sequence is reported,
if there is one and it is wanted. -/
def forward (r : Reader) : Except Fault Reader := do
  let (found, cursor) ← r.cursor.seek r.mask
  match found with
  | some record => return { r with cursor := cursor, current := some record }
  | none =>
    let last := if r.mask.contains .codeAgeSequence then r.age else none
    return { r with
      cursor := cursor
      age := none
      current := last.map (Record.bare · .codeAgeSequence) }

/-- A reader on the first wanted record of a stream, whose places are counted from `pc`. Where
nothing is wanted the stream is not looked at. -/
def start (stream : ByteArray) (pc : UInt64) (mask : Mask) (age : Option UInt64) :
    Except Fault Reader :=
  let rest := if mask.isEmpty then [] else (bytesOf stream).reverse
  forward ⟨⟨rest, pc, 0, 0⟩, mask, age, none⟩

/-- Whether the stream has been read to its end. -/
def done (r : Reader) : Bool := r.current.isNone

/-- The record that the reader stands on. -/
def record (r : Reader) : Except Fault Record :=
  match r.current with
  | some record => .ok record
  | none => .error .breach

/-- Moves to the next wanted record. A reader that is done stays where it is. -/
def advance (r : Reader) : Except Fault Reader :=
  if r.done then .ok r else r.forward

/-- Leaves the record that the reader stands on and returns it. -/
def next (r : Reader) : Except Fault (Option Record × Reader) := do
  let later ← r.advance
  return (r.current, later)

/-! ## Whole walks -/

/-- What is left to read, with one for the record the reader stands on and one for the code age
sequence. -/
def measure (r : Reader) : Nat :=
  r.cursor.rest.length + r.age.toList.length + r.current.toList.length

theorem measure_of_advance {r r' : Reader} {record : Record} (hr : r.current = some record)
    (h : r.advance = .ok r') : r'.measure < r.measure := by
  simp only [advance, done, hr, Option.isNone_some, Bool.false_eq_true, if_false] at h
  obtain ⟨⟨found, cursor⟩, e, h⟩ := bind_eq_ok.1 h
  have shorter := Cursor.length_of_seek e
  cases found with
  | some found =>
    cases h
    obtain less | ⟨-, -, absurd⟩ := shorter
    · simp only [measure, hr]
      simpa using less
    · cases absurd
  | none =>
    cases h
    have used : cursor.rest.length ≤ r.cursor.rest.length := by
      obtain less | ⟨same, -⟩ := shorter
      · exact Nat.le_of_lt less
      · exact Nat.le_of_eq (congrArg (fun c => c.rest.length) same)
    simp only [measure, hr]
    cases mark : r.age with
    | none => simpa using Nat.lt_succ_of_le used
    | some place =>
      split
      · simpa using Nat.lt_succ_of_le used
      · simp only [Option.map_none, Option.toList_none, Option.toList_some, List.length_nil,
          List.length_singleton]
        omega

end Reader

/-- A walk: the records that a reader stood on, and the fault that ended it, if one did. -/
structure Walk where
  records : Array Record
  stopped : Option Fault
  deriving DecidableEq, Repr

namespace Walk

/-- The records that were left behind. A reader that meets a fault never leaves the record it
stands on. -/
def delivered (w : Walk) : List Record :=
  match w.stopped with
  | none => w.records.toList
  | some _ => w.records.toList.dropLast

end Walk

namespace Reader

/-- The records from here on, after those that were seen before. -/
def walkAfter (seen : Array Record) (r : Reader) : Walk :=
  match hr : r.current with
  | none => ⟨seen, none⟩
  | some record =>
    match h : r.advance with
    | .error fault => ⟨seen.push record, some fault⟩
    | .ok later =>
      have : later.measure < r.measure := measure_of_advance hr h
      walkAfter (seen.push record) later
termination_by r.measure

/-- The records from here on. -/
def walk (r : Reader) : Walk := r.walkAfter #[]

end Reader

/-- Walks a stream from its first wanted record. -/
def walkStream (stream : ByteArray) (pc : UInt64) (mask : Mask) (age : Option UInt64) : Walk :=
  match Reader.start stream pc mask age with
  | .ok r => r.walk
  | .error fault => ⟨#[], some fault⟩

end CodeReloc
