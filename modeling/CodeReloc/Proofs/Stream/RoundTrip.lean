import CodeReloc.Proofs.Stream.Calls
import CodeReloc.Proofs.Stream.Forms

set_option autoImplicit false

/-!
# Streams read back

What a writer has written reads back as the records it was given, with two exceptions: of positions
that follow each other at one place only the last one is kept (`kept`), and data that the mode of a
record has no room for is lost (`Record.readBack`).

The proof follows writer and reader call by call. Between two calls the reader stands where the
encoder stands, short of the position that is held back (`Follows`), and what has been read is what
is kept of the calls so far, with the held position still to come (`Follows.call`).

Main statement: `walkStream_of_run`.
-/

namespace CodeReloc

open Wire

/-! ## What is expected -/

/-- What a record reads back as in a stream that is read from `start` on. -/
def Record.readBack (start : UInt64) (r : Record) : Record where
  pc := start + r.pc
  mode := r.mode
  data :=
    match r.mode with
    | .codeTargetWithId | .position | .statementPosition | .deoptReason | .comment => r.data
    | .constPool | .veneerPool | .debugBreakSlotAtCall => r.data.toInt32.toInt64
    | _ => 0

/-- The very next call replaces the record: both are positions at one place. -/
def replacedBy (r : Record) : List Call → Bool
  | .write next :: _ => r.mode == .position && next.mode == .position && next.pc == r.pc
  | _ => false

/-- The records that calls leave behind. -/
def kept : List Call → List Record
  | [] => []
  | .finish :: calls => kept calls
  | .write r :: calls => if replacedBy r calls then kept calls else r :: kept calls

theorem kept_append_finish (calls : List Call) : kept (calls ++ [.finish]) = kept calls := by
  induction calls with
  | nil => rfl
  | cons c calls ih =>
    cases c with
    | finish => exact ih
    | write r =>
      -- only a write replaces a record, so one more finish at the end does not
      have hnext : replacedBy r (calls ++ [.finish]) = replacedBy r calls := by
        cases calls with
        | nil => rfl
        | cons next calls => cases next <;> rfl
      rw [List.cons_append, kept, kept, hnext, ih]

/-- A record stays unless the next call writes a position at its place. -/
theorem kept_write_of_stays {r : Record} {calls : List Call} (hstays : replacedBy r calls = false) :
    kept (.write r :: calls) = r :: kept calls := by
  rw [kept, hstays, if_neg Bool.false_ne_true]

/-- What is kept was written. -/
theorem mem_of_mem_kept {calls : List Call} {r : Record} (h : r ∈ kept calls) :
    r ∈ written calls := by
  induction calls with
  | nil => exact h
  | cons c calls ih =>
    cases c with
    | finish => exact ih h
    | write first =>
      rw [kept] at h
      rw [written, List.mem_cons]
      split at h
      · exact Or.inr (ih h)
      · exact (List.mem_cons.1 h).imp id ih

theorem replacedBy_of_ne {r : Record} (hmode : r.mode ≠ .position) (calls : List Call) :
    replacedBy r calls = false := by
  unfold replacedBy
  split
  · simp [hmode]
  · rfl

/-- Only positions are replaced, so what else was written is kept. -/
theorem mem_kept_of_ne {calls : List Call} {r : Record} (h : r ∈ written calls)
    (hmode : r.mode ≠ .position) : r ∈ kept calls := by
  induction calls with
  | nil => exact h
  | cons c calls ih =>
    cases c with
    | finish => exact ih h
    | write first =>
      rw [written, List.mem_cons] at h
      rcases h with rfl | hlater
      · rw [kept_write_of_stays (replacedBy_of_ne hmode calls)]
        exact List.mem_cons_self
      · rw [kept]
        split
        · exact ih hlater
        · exact List.mem_cons_of_mem first (ih hlater)

namespace Encoder

/-- The position that is held back, as a record. -/
def pending (e : Encoder) : List Record :=
  match e.held with
  | none => []
  | some _ => [⟨e.lastPc, .position, e.lastPosition.toInt64⟩]

/-- Distance and difference of the position that is held back, or nothing. -/
def heldBack (e : Encoder) : HeldPosition := e.held.getD ⟨0, 0⟩

/-- The numbers of a reader that has read everything up to here. -/
def reader (e : Encoder) (start : UInt64) : Running := ⟨start + e.lastPc, e.lastId, e.lastPosition⟩

/-- The position that is held back stays when it is brought out, or when a record follows that is
no position at its place. -/
theorem kept_pending {e : Encoder} {calls : List Call}
    (hstays : ∀ held, e.held = some held →
      replacedBy ⟨e.lastPc, .position, e.lastPosition.toInt64⟩ calls = false) :
    kept (e.pending.map .write ++ calls) = e.pending ++ kept calls := by
  unfold pending
  cases hheld : e.held with
  | none => rfl
  | some held => exact kept_write_of_stays (hstays held hheld)

/-- The position that is held back goes when another one follows at its place. -/
theorem kept_pending_replaced {e : Encoder} {r : Record} (calls : List Call)
    (hmode : r.mode = .position) (hpc : r.pc = e.lastPc) :
    kept (e.pending.map .write ++ .write r :: calls) = kept (.write r :: calls) := by
  unfold pending
  cases hheld : e.held with
  | none => rfl
  | some held =>
    have hgoes : replacedBy ⟨e.lastPc, .position, e.lastPosition.toInt64⟩ (.write r :: calls) =
        true := by
      simp [replacedBy, hmode, hpc]
    rw [List.map_cons, List.map_nil, List.singleton_append, kept, hgoes, if_pos rfl]

end Encoder

/-! ## Records that are written at once -/

/-- Data of the long form reads back as the mode has room for it. -/
theorem payloadData_eq_readBack (start : UInt64) (r : Record)
    (hmode : Encoder.hasOwnForm r.mode = false) :
    payloadData r.mode r.data = (r.readBack start).data := by
  obtain ⟨pc, mode, data⟩ := r
  cases mode <;> first | rfl | cases hmode

/-- A record that is no position reads back from its own bytes. -/
theorem decodes_add {start : UInt64} {e e' : Encoder} {r : Record} {bytes : List UInt8}
    (hmode : r.mode ≠ .position) (h : e.add r = .ok (bytes, e'))
    (hstart : start.toNat + r.pc.toNat < 2 ^ 64) :
    Decodes (e.reader start) bytes [r.readBack start] (e'.reader start) := by
  obtain ⟨distance, hwritable, hpc, hd, hadds⟩ := Encoder.add_inv h
  have hplace : (start + r.pc).toNat = (e.reader start).pc.toNat + distance := by
    rw [Encoder.reader, toNat_add_of_lt hstart, toNat_add_of_lt (by omega)]
    omega
  obtain ⟨pc, mode, data⟩ := r
  -- one case for each way to add a record, with the lemma on the form it is written in
  cases hadds with
  | embeddedObject hobject =>
    subst hobject
    exact decodes_shortForm hd hplace (Or.inl ⟨rfl, rfl⟩)
  | codeTarget htarget =>
    subst htarget
    exact decodes_shortForm hd hplace (Or.inr ⟨rfl, rfl⟩)
  | id hid hword =>
    subst hid
    have hdata : e.lastId + (data.toInt32 - e.lastId) = data.toInt32 := by
      rw [Int32.add_comm, Int32.sub_add_cancel]
    have hfound := decodes_id (data.toInt32 - e.lastId) hd hplace
    simp only [Encoder.reader, hdata, toInt64_toInt32_of_inSigned hword] at hfound
    exact hfound
  | deoptReason hreason hdata =>
    subst hreason
    exact decodes_deoptReason hd hplace hdata
  | statement hstatement hword =>
    subst hstatement
    have hdata : e.lastPosition + (data.toInt32 - e.lastPosition) = data.toInt32 := by
      rw [Int32.add_comm, Int32.sub_add_cancel]
    have hfound := decodes_position (data.toInt32 - e.lastPosition) hd hplace (Or.inr ⟨rfl, rfl⟩)
    simp only [Encoder.reader, hdata, toInt64_toInt32_of_inSigned hword] at hfound
    exact hfound
  | newPosition hposition => exact absurd hposition hmode
  | samePosition hposition => exact absurd hposition hmode
  | long hlong =>
    -- what is left are modes that read back without looking at earlier records
    have hjump : mode ≠ .pcJump := by
      rintro rfl
      cases hwritable
    have hid : mode ≠ .codeTargetWithId := by
      rintro rfl
      cases hlong
    have hposition : mode.isPosition = false := by
      cases mode <;> first | rfl | cases hlong
    have hfound := decodes_long data hd hplace hjump hid hposition
    rw [payloadData_eq_readBack start ⟨pc, mode, data⟩ hlong] at hfound
    exact hfound

/-! ## Writer and reader in step -/

/-- A reader of the bytes so far has the numbers of the encoder, except that the position that is
held back is still ahead of it. -/
structure Follows (start : UInt64) (e : Encoder) (s : Running) : Prop where
  sound : e.Sound
  lastId_eq : s.lastId = e.lastId
  place_eq : s.pc.toNat + e.heldBack.distance = start.toNat + e.lastPc.toNat
  position_eq : s.lastPosition + e.heldBack.delta = e.lastPosition

namespace Follows

variable {start : UInt64} {e e' : Encoder} {s : Running} {bytes : List UInt8}

theorem of_held_eq_none (hheld : e.held = none)
    (hstart : start.toNat + e.lastPc.toNat < 2 ^ 64) : Follows start e (e.reader start) := by
  have hback : e.heldBack = ⟨0, 0⟩ := by rw [Encoder.heldBack, hheld, Option.getD_none]
  refine ⟨.of_held_eq_none hheld, rfl, ?_, ?_⟩
  · rw [hback]
    exact toNat_add_of_lt hstart
  · rw [hback]
    exact Int32.add_zero _

/-- The position that is held back reads back, and brings the reader up with the encoder. -/
theorem decodes_heldBytes (hs : Follows start e s)
    (hstart : start.toNat + e.lastPc.toNat < 2 ^ 64) :
    Decodes s e.heldBytes (e.pending.map (Record.readBack start)) (e.reader start) := by
  obtain ⟨pc, lastId, lastPosition⟩ := s
  have hid := hs.lastId_eq
  have hplace := hs.place_eq
  have hposition := hs.position_eq
  rw [← toNat_add_of_lt hstart] at hplace
  unfold Encoder.heldBytes Encoder.pending
  unfold Encoder.heldBack at hplace hposition
  cases hheld : e.held with
  | none =>
    simp only [hheld, Option.getD_none, Nat.add_zero, Int32.add_zero] at hid hplace hposition
    rw [UInt64.toNat_inj.1 hplace, hid, hposition]
    exact .refl _
  | some held =>
    simp only [hheld, Option.getD_some] at hid hplace hposition
    subst hid
    have hd := hs.sound.distance_lt held hheld
    have hfound := decodes_position (s := ⟨pc, e.lastId, lastPosition⟩) held.delta hd hplace.symm
      (Or.inl ⟨rfl, rfl⟩)
    simp only [hposition] at hfound
    exact hfound

end Follows

/-- A reader that followed the encoder before the calls reads on through their bytes and follows it
after them. What it finds is what is kept of the calls, the position held back before them included
and the one held back after them not. -/
def ReadsOn (start : UInt64) (e : Encoder) (s : Running) (calls : List Call) (bytes : List UInt8)
    (e' : Encoder) : Prop :=
  ∃ found t, Decodes s bytes (found.map (Record.readBack start)) t ∧ Follows start e' t ∧
    ∀ more, kept (e.pending.map .write ++ (calls ++ more)) =
      found ++ kept (e'.pending.map .write ++ more)

namespace Follows

variable {start : UInt64} {e e' : Encoder} {s : Running} {bytes : List UInt8}

theorem finish (hs : Follows start e s) (hstart : start.toNat + e.lastPc.toNat < 2 ^ 64) :
    ReadsOn start e s [.finish] e.heldBytes e.release := by
  refine ⟨e.pending, e.reader start, hs.decodes_heldBytes hstart, ?_, ?_⟩
  · exact of_held_eq_none rfl hstart
  · intro more
    exact Encoder.kept_pending fun _ _ => rfl

/-- A record that is no position brings out the position that is held back, and follows it. -/
theorem write_other (hs : Follows start e s) {r : Record} {added : List UInt8}
    (hmode : r.mode ≠ .position) (h : e.release.add r = .ok (added, e'))
    (hpc : e.lastPc.toNat ≤ e'.lastPc.toNat) (hstart : start.toNat + e'.lastPc.toNat < 2 ^ 64) :
    ReadsOn start e s [.write r] (e.heldBytes ++ added) e' := by
  obtain ⟨distance, -, -, -, hadds⟩ := Encoder.add_inv h
  have hlast := hadds.lastPc_eq
  have hheld : e'.held = none := Encoder.held_add hmode h
  have hbefore := hs.decodes_heldBytes (by omega)
  have hrecord := decodes_add hmode h (by rw [← hlast]; exact hstart)
  refine ⟨e.pending ++ [r], e'.reader start, ?_, of_held_eq_none hheld hstart, ?_⟩
  · rw [List.map_append]
    exact hbefore.trans hrecord
  · intro more
    have hnone : e'.pending = [] := by rw [Encoder.pending, hheld]
    have hafter : replacedBy ⟨e.lastPc, .position, e.lastPosition.toInt64⟩ (.write r :: more) =
        false := by
      simp [replacedBy, hmode]
    rw [List.singleton_append, Encoder.kept_pending fun _ _ => hafter,
      kept_write_of_stays (replacedBy_of_ne hmode more), hnone, List.append_assoc]
    rfl

/-- A position is held back. The one that was held back before is brought out, or replaced if it
lies at the same place. -/
theorem write_position (hs : Follows start e s) {r : Record} (hmode : r.mode = .position)
    (h : e.add r = .ok (bytes, e')) (hstart : start.toNat + e'.lastPc.toNat < 2 ^ 64) :
    ReadsOn start e s [.write r] bytes e' := by
  have hsound := hs.sound.add (fun hother => absurd hmode hother) h
  obtain ⟨distance, -, hpc, -, hadds⟩ := Encoder.add_inv h
  obtain ⟨hword, hcases⟩ := hadds.of_position hmode
  rw [hadds.lastPc_eq] at hstart
  have hdata : e.lastPosition + (r.data.toInt32 - e.lastPosition) = r.data.toInt32 := by
    rw [Int32.add_comm, Int32.sub_add_cancel]
  have hrecord : (⟨r.pc, .position, r.data.toInt32.toInt64⟩ : Record) = r := by
    rw [toInt64_toInt32_of_inSigned hword, ← hmode]
  rcases hcases with ⟨rfl, hnew, rfl⟩ | ⟨rfl, ⟨hzero, -⟩, rfl⟩
  · -- the position that was held back is final now, and the new one is held back instead
    refine ⟨e.pending, e.reader start, hs.decodes_heldBytes (by omega), ?_, ?_⟩
    · refine ⟨hsound, rfl, ?_, hdata⟩
      have hplace : (start + e.lastPc).toNat = start.toNat + e.lastPc.toNat :=
        toNat_add_of_lt (by omega)
      change (start + e.lastPc).toNat + distance = start.toNat + r.pc.toNat
      omega
    · intro more
      have hstays : ∀ held, e.held = some held →
          replacedBy ⟨e.lastPc, .position, e.lastPosition.toInt64⟩ (.write r :: more) = false := by
        intro held hheld
        rcases hnew with hdistance | hlast
        · have hne : r.pc ≠ e.lastPc := by
            intro hsame
            rw [hsame] at hpc
            omega
          simp [replacedBy, hne]
        · exact absurd (hs.sound.lastMode_eq held hheld) hlast
      rw [List.singleton_append, Encoder.kept_pending hstays]
      change _ = e.pending ++ kept (.write ⟨r.pc, .position, r.data.toInt32.toInt64⟩ :: more)
      rw [hrecord]
  · -- nothing is read, and what is held back now covers both differences
    refine ⟨[], s, .refl s, ?_, ?_⟩
    · refine ⟨hsound, hs.lastId_eq, ?_, ?_⟩
      · have hplace := hs.place_eq
        change s.pc.toNat + e.heldBack.distance = start.toNat + r.pc.toNat
        omega
      · change s.lastPosition + (e.heldBack.delta + (r.data.toInt32 - e.lastPosition)) = _
        rw [← Int32.add_assoc, hs.position_eq]
        exact hdata
    · intro more
      have hsame : r.pc = e.lastPc := by
        apply UInt64.toNat_inj.1
        omega
      rw [List.singleton_append, Encoder.kept_pending_replaced more hmode hsame]
      change _ = kept (.write ⟨r.pc, .position, r.data.toInt32.toInt64⟩ :: more)
      rw [hrecord]

/-- One call keeps reader and encoder in step. -/
theorem call (hs : Follows start e s) {c : Call} (h : e.call c = .ok (bytes, e'))
    (hstart : start.toNat + e'.lastPc.toNat < 2 ^ 64) : ReadsOn start e s [c] bytes e' := by
  cases c with
  | finish =>
    cases h
    exact hs.finish hstart
  | write r =>
    obtain ⟨hpc, -⟩ := Encoder.lastPc_call h
    rcases Encoder.call_write_inv h with ⟨hmode, hadd⟩ | ⟨hmode, added, rfl, hadd⟩
    · exact hs.write_position hmode hadd hstart
    · exact hs.write_other hmode hadd hpc hstart

/-- Calls one after the other keep reader and encoder in step. -/
theorem run (hs : Follows start e s) {calls : List Call} (h : e.run calls = .ok (bytes, e'))
    (hstart : start.toNat + e'.lastPc.toNat < 2 ^ 64) : ReadsOn start e s calls bytes e' := by
  induction calls generalizing e s bytes with
  | nil =>
    cases h
    exact ⟨[], s, .refl s, hs, fun _ => rfl⟩
  | cons c calls ih =>
    obtain ⟨first, mid, more, hcall, hrun, rfl⟩ := Encoder.run_cons_eq_ok.1 h
    obtain ⟨hmid, -⟩ := Encoder.lastPc_run hrun
    obtain ⟨found, t, hdecodes, ht, hkept⟩ := hs.call hcall (by omega)
    obtain ⟨later, u, hdecodes', hu, hkept'⟩ := ih ht hrun
    refine ⟨found ++ later, u, ?_, hu, fun rest => ?_⟩
    · rw [List.map_append]
      exact hdecodes.trans hdecodes'
    · -- what is held back after the first call is what the others begin with
      calc kept (e.pending.map .write ++ (c :: calls ++ rest))
          = kept (e.pending.map .write ++ ([c] ++ (calls ++ rest))) := rfl
        _ = found ++ kept (mid.pending.map .write ++ (calls ++ rest)) := hkept _
        _ = found ++ (later ++ kept (e'.pending.map .write ++ rest)) := by rw [hkept']
        _ = found ++ later ++ kept (e'.pending.map .write ++ rest) := by rw [List.append_assoc]

end Follows

/-! ## Whole streams -/

/-- The place that calls lead to lies in range when the last record that they write does. -/
theorem lastPc_in_range {start : UInt64} {calls : List Call} {bytes : List UInt8} {e' : Encoder}
    (h : Encoder.start.run calls = .ok (bytes, e'))
    (hstart : ∀ r ∈ (written calls).getLast?, start.toNat + r.pc.toNat < 2 ^ 64) :
    start.toNat + e'.lastPc.toNat < 2 ^ 64 := by
  rw [(Encoder.lastPc_run h).2]
  cases hwritten : (written calls).getLast? with
  | none => exact start.toNat_lt
  | some r => exact hstart r hwritten

/-- A finished run of an encoder reads back as what is kept of its calls. -/
theorem walkStream_of_bytes {start : UInt64} {calls : List Call} {bytes : List UInt8}
    {e' : Encoder} {stream : ByteArray}
    (h : Encoder.start.run (calls ++ [.finish]) = .ok (bytes, e'))
    (hstart : ∀ r ∈ (written calls).getLast?, start.toNat + r.pc.toNat < 2 ^ 64)
    (hstream : bytesOf stream = bytes.reverse) :
    walkStream stream start .all none =
      ⟨((kept calls).map (Record.readBack start)).toArray, none⟩ := by
  have hlast : start.toNat + e'.lastPc.toNat < 2 ^ 64 := by
    refine lastPc_in_range h ?_
    rw [written_append, show written [.finish] = [] from rfl, List.append_nil]
    exact hstart
  have hbegin : Follows start .start ⟨start, 0, 0⟩ := ⟨.start, rfl, rfl, rfl⟩
  obtain ⟨found, t, hdecodes, ht, hkept⟩ := hbegin.run h hlast
  -- the run ends with a finish, so nothing is left to be brought out
  have hpending : e'.pending = [] := by
    obtain ⟨first, mid, more, -, hfinish, -⟩ := Encoder.run_append_eq_ok.1 h
    cases hfinish
    rfl
  have hfound : found = kept calls := by
    have hall := hkept []
    rw [hpending, List.append_nil] at hall
    rw [← kept_append_finish calls]
    exact (List.append_nil found).symm.trans hall.symm
  rw [← hfound]
  exact hdecodes.walkStream_eq hstream

/-- From the lowest place on, every record lies in range. -/
theorem Record.pc_in_range (r : Record) : (0 : UInt64).toNat + r.pc.toNat < 2 ^ 64 := by
  rw [UInt64.toNat_zero, Nat.zero_add]
  exact r.pc.toNat_lt

theorem walkStream_zero_of_bytes {calls : List Call} {bytes : List UInt8} {e' : Encoder}
    {stream : ByteArray} (h : Encoder.start.run (calls ++ [.finish]) = .ok (bytes, e'))
    (hstream : bytesOf stream = bytes.reverse) :
    walkStream stream 0 .all none =
      ⟨((kept calls).map (Record.readBack 0)).toArray, none⟩ := by
  apply walkStream_of_bytes h _ hstream
  intro r _
  exact r.pc_in_range

/-- **What a writer has written reads back as it was given, read from any place from which the last
record lies in range.** For the records of `encode` this is one writer that is finished at the
end. -/
theorem walkStream_of_run (start : UInt64) :
    (∀ stop buffer calls w buffer',
      (Writer.new stop).run buffer (calls ++ [.finish]) = .ok (w, buffer') →
      (∀ r ∈ (written calls).getLast?, start.toNat + r.pc.toNat < 2 ^ 64) →
      walkStream (buffer'.extract w.pos stop) start .all none =
        ⟨((kept calls).map (Record.readBack start)).toArray, none⟩) ∧
    (∀ records stream, encode records = .ok stream →
      (∀ r ∈ records.getLast?, start.toNat + r.pc.toNat < 2 ^ 64) →
      walkStream stream start .all none =
        ⟨((kept (records.map .write)).map (Record.readBack start)).toArray, none⟩) := by
  constructor
  · intro stop buffer calls w buffer' h hstart
    obtain ⟨bytes, hbytes, hplaced⟩ := Writer.run_inv h
    exact walkStream_of_bytes hbytes hstart hplaced.extract_eq
  · intro records stream h hstart
    obtain ⟨bytes, e', hbytes, hstream⟩ := encode_eq_ok.1 h
    rw [← written_map_write records] at hstart
    exact walkStream_of_bytes hbytes hstart hstream

/-- Replaced and separated positions, a jump, and data that is lost. -/
theorem walkStream_of_run_replaced :
    (Writer.new 16).run (copies 16 0)
        ([.write ⟨2, .position, 5⟩, .write ⟨2, .position, 6⟩, .finish, .write ⟨2, .position, 4⟩,
          .write ⟨70000, .constPool, 4294967295⟩, .write ⟨70000, .cell, 9⟩] ++ [.finish]) =
        .ok (⟨1, ⟨70000, 0, 4, some .cell, none⟩⟩,
          ⟨#[0, 0, 23, 255, 255, 255, 255, 46, 75, 17, 138, 87, 249, 2, 25, 10]⟩) ∧
      walkStream (ByteArray.extract
            ⟨#[0, 0, 23, 255, 255, 255, 255, 46, 75, 17, 138, 87, 249, 2, 25, 10]⟩ 1 16)
          16 .all none =
        ⟨#[⟨18, .position, 6⟩, ⟨18, .position, 4⟩, ⟨70016, .constPool, -1⟩, ⟨70016, .cell, 0⟩],
          none⟩ := by
  have hrun : (Writer.new 16).run (copies 16 0)
        ([.write ⟨2, .position, 5⟩, .write ⟨2, .position, 6⟩, .finish, .write ⟨2, .position, 4⟩,
          .write ⟨70000, .constPool, 4294967295⟩, .write ⟨70000, .cell, 9⟩] ++ [.finish]) =
        .ok (⟨1, ⟨70000, 0, 4, some .cell, none⟩⟩,
          ⟨#[0, 0, 23, 255, 255, 255, 255, 46, 75, 17, 138, 87, 249, 2, 25, 10]⟩) := by
    decide +kernel
  have hwalk := (walkStream_of_run 16).1 16 (copies 16 0) _ _ _ hrun (by decide)
  exact ⟨hrun, hwalk.trans (by decide)⟩

end CodeReloc
