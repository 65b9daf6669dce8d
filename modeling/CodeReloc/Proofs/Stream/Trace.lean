import CodeReloc.Stream.Reader

set_option autoImplicit false

/-!
# Reading a stream in one go

A reader goes from record to record and looks for the next wanted one each time. `Cursor.trace`
reads the same bytes in a single recursion over what is still to come: one item, then the rest. Its
recursion is the one that laws about all streams are proved along. A code age sequence is no part of
the bytes: it closes a trace that has come to its end (`Trace.closedBy`).

A walk lists what a reader stands on, so it also says where a reader is after any number of steps
(`Walk.at`).

Main statements: `toTrace_walkStream`, the walk of a reader is the trace of its bytes, and
`advances_start`, the steps of a reader are those of its walk.
-/

namespace CodeReloc

/-- What a reading to the end comes to: the records found, and the fault that ended it, if one
did. -/
structure Trace where
  records : List Record
  stopped : Option Fault
  deriving DecidableEq, Repr

namespace Trace

/-- Nothing found, and the end reached. -/
def done : Trace := ⟨[], none⟩

/-- A fault before anything was found. -/
def fail (fault : Fault) : Trace := ⟨[], some fault⟩

/-- The trace with records found before it. -/
def after (found : List Record) (t : Trace) : Trace := ⟨found ++ t.records, t.stopped⟩

@[simp] theorem after_nil (t : Trace) : t.after [] = t := rfl

theorem after_append (xs ys : List Record) (t : Trace) :
    t.after (xs ++ ys) = (t.after ys).after xs := by
  simp [after]

/-- The trace with records behind its last one, if it has come to its end. -/
def closedBy (last : List Record) (t : Trace) : Trace :=
  ⟨t.records ++ if t.stopped.isNone then last else [], t.stopped⟩

@[simp] theorem closedBy_nil (t : Trace) : t.closedBy [] = t := by
  simp [closedBy]

theorem closedBy_after (found last : List Record) (t : Trace) :
    (t.after found).closedBy last = (t.closedBy last).after found := by
  simp [closedBy, after]

end Trace

namespace Walk

/-- A walk without the array. -/
def toTrace (w : Walk) : Trace := ⟨w.records.toList, w.stopped⟩

theorem toTrace_injective {v w : Walk} (h : v.toTrace = w.toTrace) : v = w := by
  obtain ⟨xs, f⟩ := v
  obtain ⟨ys, g⟩ := w
  simp only [toTrace, Trace.mk.injEq, Array.toList_inj] at h
  obtain ⟨rfl, rfl⟩ := h
  rfl

end Walk

namespace Cursor

/-- Reads everything that is still to come. -/
def trace (mask : Mask) (c : Cursor) : Trace :=
  match hc : c.rest with
  | [] => .done
  | first :: rest =>
    match h : item mask { c with rest := rest } first with
    | .error fault => .fail fault
    | .ok (found, c') =>
      have : c'.rest.length < c.rest.length := hc ▸ Nat.lt_succ_of_le (length_of_item h)
      (trace mask c').after found.toList
termination_by c.rest.length

/-- The rest of a trace, once its first item has been read. -/
def traceItem (mask : Mask) : Except Fault (Option Record × Cursor) → Trace
  | .error fault => .fail fault
  | .ok (found, c) => (trace mask c).after found.toList

theorem trace_nil {mask : Mask} {c : Cursor} (h : c.rest = []) : trace mask c = .done := by
  rw [trace]
  split
  · rfl
  · rename_i hc
    rw [h] at hc
    cases hc

theorem trace_cons {mask : Mask} {c : Cursor} {first : UInt8} {rest : List UInt8}
    (h : c.rest = first :: rest) :
    trace mask c = traceItem mask (item mask { c with rest := rest } first) := by
  rw [trace]
  split
  · rename_i hc
    rw [h] at hc
    cases hc
  · rename_i hc
    rw [h] at hc
    cases hc
    split
    · rename_i e
      exact (congrArg (traceItem mask) e).symm
    · rename_i e
      exact (congrArg (traceItem mask) e).symm

/-- What a search for the next wanted record finds is what the trace goes on with. -/
theorem trace_eq_seek (mask : Mask) (c : Cursor) :
    trace mask c =
      match seek mask c with
      | .error fault => .fail fault
      | .ok (none, _) => .done
      | .ok (some r, c') => (trace mask c').after [r] := by
  fun_induction seek mask c with
  | case1 c hc => exact trace_nil hc
  | case2 c first rest hc fault e => rw [trace_cons hc, e, traceItem]
  | case3 c first rest hc r c' e => rw [trace_cons hc, e, traceItem, Option.toList_some]
  | case4 c first rest hc c' e bound ih =>
    rw [trace_cons hc, e, traceItem, Option.toList_none, Trace.after_nil, ih]

/-- A search that finds nothing has used up all bytes. -/
theorem rest_of_seek {mask : Mask} {c c' : Cursor} (h : seek mask c = .ok (none, c')) :
    c'.rest = [] := by
  fun_induction seek mask c with
  | case1 c hc =>
    cases h
    exact hc
  | case2 c first rest hc fault e => cases h
  | case3 c first rest hc r c'' e => cases h
  | case4 c first rest hc c'' e bound ih => exact ih h

end Cursor

namespace Reader

/-! ## Readers -/

/-- What a code age sequence adds to the records of a stream. -/
def closing (mask : Mask) (age : Option UInt64) : Option Record :=
  (if mask.contains .codeAgeSequence then age else none).map (Record.bare · .codeAgeSequence)

theorem closing_none (mask : Mask) : closing mask none = none := by
  simp [closing]

/-- What a reader has not come to yet. -/
def ahead (r : Reader) : Trace := (r.cursor.trace r.mask).closedBy (closing r.mask r.age).toList

/-- The record that a reader stands on and what is ahead of it. -/
def trace (r : Reader) : Trace :=
  match r.current with
  | none => .done
  | some record => r.ahead.after [record]

theorem trace_of_current {r : Reader} {record : Record} (h : r.current = some record) :
    r.trace = r.ahead.after [record] := by
  rw [trace, h]

/-- At the end of the bytes a reader stands on the code age sequence, with nothing ahead of it, or
on nothing. -/
theorem trace_of_end (c : Cursor) (mask : Mask) (current : Option Record) (hc : c.rest = []) :
    trace ⟨c, mask, none, current⟩ = ⟨current.toList, none⟩ := by
  cases current with
  | none => rfl
  | some last =>
    have hahead : ahead ⟨c, mask, none, some last⟩ = .done := by
      rw [ahead, Cursor.trace_nil hc, closing_none, Option.toList_none, Trace.closedBy_nil]
    rw [trace_of_current rfl, hahead]
    rfl

/-- What is ahead of a reader is what it goes on to. -/
theorem ahead_eq_forward (r : Reader) :
    r.ahead =
      match r.forward with
      | .error fault => .fail fault
      | .ok later => later.trace := by
  rw [ahead, Cursor.trace_eq_seek, forward]
  cases hseek : r.cursor.seek r.mask with
  | error fault => rfl
  | ok answer =>
    obtain ⟨found, c⟩ := answer
    cases found with
    | none => exact (trace_of_end c r.mask _ (Cursor.rest_of_seek hseek)).symm
    | some record => exact Trace.closedBy_after [record] _ _

theorem advance_of_current {r : Reader} {record : Record} (h : r.current = some record) :
    r.advance = r.forward := by
  simp [advance, done, h]

/-- A walk lists the record that the reader stands on and then what is ahead of it. -/
theorem toTrace_walkAfter (seen : Array Record) (r : Reader) :
    (r.walkAfter seen).toTrace = r.trace.after seen.toList := by
  fun_induction walkAfter seen r with
  | case1 seen r hr => simp [trace, hr, Walk.toTrace, Trace.after, Trace.done]
  | case2 seen r record hr fault h =>
    -- what comes next is a fault, with this record still to be listed
    rw [advance_of_current hr] at h
    rw [trace_of_current hr, ahead_eq_forward, h]
    simp [Walk.toTrace, Trace.after, Trace.fail]
  | case3 seen r record hr later h bound ih =>
    rw [advance_of_current hr] at h
    rw [trace_of_current hr, ahead_eq_forward, h, ih, Array.toList_push, Trace.after_append]

theorem toTrace_walk (r : Reader) : r.walk.toTrace = r.trace := toTrace_walkAfter #[] r

end Reader

/-! ## Walks of a stream -/

/-- A walk is the trace of the bytes that are looked at, with the code age sequence behind it. Where
nothing is wanted none are. -/
theorem toTrace_walkStream_looked (stream : ByteArray) (pc : UInt64) (mask : Mask)
    (age : Option UInt64) :
    (walkStream stream pc mask age).toTrace =
      (Cursor.trace mask
          ⟨if mask.isEmpty then [] else (bytesOf stream).reverse, pc, 0, 0⟩).closedBy
        (Reader.closing mask age).toList := by
  rw [walkStream, Reader.start]
  generalize (if mask.isEmpty then [] else (bytesOf stream).reverse) = rest
  have hahead := Reader.ahead_eq_forward ⟨⟨rest, pc, 0, 0⟩, mask, age, none⟩
  rw [Reader.ahead] at hahead
  rw [hahead]
  cases Reader.forward ⟨⟨rest, pc, 0, 0⟩, mask, age, none⟩ with
  | error fault => rfl
  | ok r => exact r.toTrace_walk

/-- The walk of a stream is the trace of its bytes, from the last one down, with the code age
sequence behind it. -/
theorem toTrace_walkStream_age (stream : ByteArray) (pc : UInt64) {mask : Mask}
    (age : Option UInt64) (hmask : mask.isEmpty = false) :
    (walkStream stream pc mask age).toTrace =
      (Cursor.trace mask ⟨(bytesOf stream).reverse, pc, 0, 0⟩).closedBy
        (Reader.closing mask age).toList := by
  rw [toTrace_walkStream_looked, hmask, if_neg Bool.false_ne_true]

/-- A walk without a code age sequence is the trace of the bytes. -/
theorem toTrace_walkStream (stream : ByteArray) (pc : UInt64) {mask : Mask}
    (hmask : mask.isEmpty = false) :
    (walkStream stream pc mask none).toTrace =
      Cursor.trace mask ⟨(bytesOf stream).reverse, pc, 0, 0⟩ := by
  rw [toTrace_walkStream_age stream pc none hmask, Reader.closing_none, Option.toList_none,
    Trace.closedBy_nil]

/-! ## Steps of a reader -/

/-- What a reader stands on after some steps: a record, nothing once the end is reached, or a
fault. -/
def Trace.at (t : Trace) (n : Nat) : Except Fault (Option Record) :=
  match t.records[n]?, t.stopped with
  | some record, _ => .ok (some record)
  | none, none => .ok none
  | none, some fault => .error fault

/-- What the reader of a walk stands on after some steps. -/
def Walk.at (w : Walk) (n : Nat) : Except Fault (Option Record) := w.toTrace.at n

namespace Reader

/-- Advances some times. -/
def advances : Nat → Reader → Except Fault Reader
  | 0, r => .ok r
  | n + 1, r => r.advance >>= advances n

/-- **The steps of a reader are those of its trace.** -/
theorem advances_eq_at (r : Reader) (n : Nat) :
    (r.advances n).map Reader.current = r.trace.at n := by
  induction n generalizing r with
  | zero =>
    cases hr : r.current with
    | none => simp [advances, Except.map, trace, hr, Trace.at, Trace.done]
    | some record => simp [advances, Except.map, trace_of_current hr, hr, Trace.at, Trace.after]
  | succ n ih =>
    rw [advances]
    cases hr : r.current with
    | none =>
      -- a reader that is done stays where it is
      have hsame : r.advance = .ok r := by simp [advance, done, hr]
      have hdone : r.trace = .done := by rw [trace, hr]
      rw [hsame]
      refine (ih r).trans ?_
      rw [hdone]
      rfl
    | some record =>
      rw [advance_of_current hr, trace_of_current hr, ahead_eq_forward]
      cases r.forward with
      | error fault => simp [bind, Except.bind, Except.map, Trace.at, Trace.after, Trace.fail]
      | ok later =>
        refine (ih later).trans ?_
        simp [Trace.at, Trace.after]

/-- The steps of a reader of a stream are those of its walk. -/
theorem advances_start (stream : ByteArray) (pc : UInt64) (mask : Mask) (age : Option UInt64)
    (n : Nat) :
    (start stream pc mask age >>= advances n).map Reader.current =
      (walkStream stream pc mask age).at n := by
  rw [Walk.at, walkStream]
  cases start stream pc mask age with
  | error fault => rfl
  | ok r =>
    simp only [toTrace_walk]
    exact advances_eq_at r n

end Reader

end CodeReloc
