import CodeReloc.Proofs.Stream.Checks

set_option autoImplicit false

/-!
# The contract of a stream

What is asked of the records of a stream can be said without an encoder: a mode that has an
encoding, a place that does not lie before the record in front and less than `2 ^ 32` behind it, and
data that the mode has room for. `Record.Breaks` lists the ways in which a record can fail to keep
this, with the fault that each of them is. These are all the faults there are: an encoder adds a
record exactly when it breaks nothing (`Encoder.breaks_of_add`, `Encoder.not_breaks_of_add`), the
room that `encode` sets aside is enough for every list, at every record of it, and the checks inside
its forms are kept (`Encoder.formed_run`).

Main statement: `encode_faults_iff`.
-/

namespace CodeReloc

open Wire

/-! ## Breaking the contract -/

/-- The ways in which a record that follows one at `last` breaks the contract of a stream. -/
inductive Record.Breaks (last : UInt64) (r : Record) : Fault → Prop where
  | unencodable
      (hmode : r.mode = .pcJump ∨ r.mode = .none32 ∨ r.mode = .none64 ∨
        r.mode = .codeAgeSequence) :
      Record.Breaks last r (.unencodable r.mode)
  | backwards (hpc : r.pc.toNat < last.toNat) : Record.Breaks last r .pcBackwards
  | distant (hpc : last.toNat + 2 ^ 32 ≤ r.pc.toNat) : Record.Breaks last r .breach
  | word (hmode : r.mode = .codeTargetWithId ∨ r.mode = .position ∨ r.mode = .statementPosition)
      (hdata : r.data.toInt < -2 ^ 31 ∨ 2 ^ 31 ≤ r.data.toInt) :
      Record.Breaks last r (.dataTooWide r.mode r.data)
  | reason (hmode : r.mode = .deoptReason) (hdata : r.data.toInt < 0 ∨ 64 ≤ r.data.toInt) :
      Record.Breaks last r (.reasonTooWide r.data)

/-- The place that the record after these ones is counted from. -/
def placeAfter (records : List Record) : UInt64 := (records.getLast?.map Record.pc).getD 0

theorem isWritable_eq_false_iff {mode : Mode} :
    mode.isWritable = false ↔
      mode = .pcJump ∨ mode = .none32 ∨ mode = .none64 ∨ mode = .codeAgeSequence := by
  cases mode <;> decide

theorem inSigned_eq_false_iff {data : Int64} :
    inSigned data 32 = false ↔ data.toInt < -2 ^ 31 ∨ 2 ^ 31 ≤ data.toInt := by
  have hbits : ((1 <<< (32 - 1) : Nat) : Int) = 2 ^ 31 := by decide
  rw [← Bool.not_eq_true, inSigned_iff (by decide), hbits]
  omega

theorem inUnsigned_eq_false_iff {data : Int64} :
    inUnsigned data shortDataBits = false ↔ data.toInt < 0 ∨ 64 ≤ data.toInt := by
  have hbits : ((1 <<< shortDataBits : Nat) : Int) = 64 := by decide
  rw [← Bool.not_eq_true, inUnsigned_iff (by decide), hbits]
  omega

namespace Encoder

variable {e e' : Encoder} {r : Record} {bytes : List UInt8} {fault : Fault}

theorem breaks_of_distanceTo (h : e.distanceTo r = .error fault) : r.Breaks e.lastPc fault := by
  rcases require_bind_eq_error.1 h with ⟨hwritable, rfl⟩ | ⟨-, h⟩
  · exact .unencodable (isWritable_eq_false_iff.1 hwritable)
  rcases require_bind_eq_error.1 h with ⟨hbackwards, rfl⟩ | ⟨-, h⟩
  · rw [decide_eq_false_iff_not, UInt64.le_iff_toNat_le] at hbackwards
    exact .backwards (by omega)
  rcases require_bind_eq_error.1 h with ⟨hdistant, rfl⟩ | ⟨-, h⟩
  · rw [decide_eq_false_iff_not] at hdistant
    exact .distant (by omega)
  · cases h

theorem breaks_of_word {last : UInt64}
    (hmode : r.mode = .codeTargetWithId ∨ r.mode = .position ∨ r.mode = .statementPosition)
    (h : r.word = .error fault) : r.Breaks last fault := by
  rcases require_bind_eq_error.1 h with ⟨hword, rfl⟩ | ⟨-, h⟩
  · exact .word hmode (inSigned_eq_false_iff.1 hword)
  · cases h

/-- A record that is not added breaks the contract, in the way that the fault says. -/
theorem breaks_of_add (h : e.add r = .error fault) : r.Breaks e.lastPc fault := by
  rcases bind_eq_error.1 h with hdistance | ⟨distance, -, h⟩
  · exact breaks_of_distanceTo hdistance
  obtain ⟨pc, mode, data⟩ := r
  -- only ids, positions and reasons are checked once the distance is known
  cases mode
  case codeTargetWithId =>
    rcases bind_eq_error.1 h with hword | ⟨id, -, h⟩
    · exact breaks_of_word (Or.inl rfl) hword
    · cases h
  case deoptReason =>
    rcases require_bind_eq_error.1 h with ⟨hreason, rfl⟩ | ⟨-, h⟩
    · exact .reason rfl (inUnsigned_eq_false_iff.1 hreason)
    · cases h
  case statementPosition =>
    rcases bind_eq_error.1 h with hword | ⟨position, -, h⟩
    · exact breaks_of_word (Or.inr (Or.inr rfl)) hword
    · cases h
  case position =>
    rcases bind_eq_error.1 h with hword | ⟨position, -, h⟩
    · exact breaks_of_word (Or.inr (Or.inl rfl)) hword
    · simp only at h
      split at h <;> cases h
  all_goals cases h

/-- What is added as an id or a position is a number of 32 bits. -/
theorem Adds.inSigned {distance : Nat} (h : Adds e r distance bytes e')
    (hmode : r.mode = .codeTargetWithId ∨ r.mode = .position ∨ r.mode = .statementPosition) :
    inSigned r.data 32 = true := by
  cases h with
  | id _ hword | statement _ hword | newPosition _ hword | samePosition _ hword => exact hword
  | embeddedObject hother | codeTarget hother | deoptReason hother => simp [hother] at hmode
  | long hother =>
    rcases hmode with hmode | hmode | hmode
    all_goals
      rw [hmode] at hother
      cases hother

/-- What is added as a reason fits a data byte. -/
theorem Adds.inUnsigned {distance : Nat} (h : Adds e r distance bytes e')
    (hmode : r.mode = .deoptReason) : inUnsigned r.data shortDataBits = true := by
  cases h with
  | deoptReason _ hdata => exact hdata
  | embeddedObject hother | codeTarget hother | id hother | statement hother
  | newPosition hother | samePosition hother | long hother =>
    rw [hmode] at hother
    cases hother

/-- A record that is added breaks nothing. -/
theorem not_breaks_of_add (h : e.add r = .ok (bytes, e')) : ¬ r.Breaks e.lastPc fault := by
  obtain ⟨distance, hwritable, hpc, hlt, hadds⟩ := add_inv h
  intro hbreaks
  cases hbreaks with
  | unencodable hmode =>
    rw [isWritable_eq_false_iff.2 hmode] at hwritable
    cases hwritable
  | backwards hbackwards => omega
  | distant hdistant => omega
  | word hmode hdata =>
    have hword := hadds.inSigned hmode
    rw [inSigned_eq_false_iff.2 hdata] at hword
    cases hword
  | reason hmode hdata =>
    have hreason := hadds.inUnsigned hmode
    rw [inUnsigned_eq_false_iff.2 hdata] at hreason
    cases hreason

/-! ## Calls -/

/-- Only a record can be refused, and what is brought out before it does not change what it is
counted from. -/
theorem breaks_of_call {c : Call} (h : e.call c = .error fault) :
    ∃ r, c = .write r ∧ r.Breaks e.lastPc fault := by
  cases c with
  | finish => cases h
  | write r =>
    refine ⟨r, rfl, ?_⟩
    by_cases hmode : r.mode = .position
    · rw [call, if_pos hmode] at h
      exact breaks_of_add h
    · rw [call, if_neg hmode] at h
      rcases bind_eq_error.1 h with hadd | ⟨added, -, h⟩
      · exact breaks_of_add (e := e.release) hadd
      · cases h

theorem not_breaks_of_call (h : e.call (.write r) = .ok (bytes, e')) :
    ¬ r.Breaks e.lastPc fault := by
  rcases call_write_inv h with ⟨-, hadd⟩ | ⟨-, added, -, hadd⟩
  · exact not_breaks_of_add hadd
  · exact not_breaks_of_add (e := e.release) hadd

/-- A record that breaks nothing is written. -/
theorem call_of_not_breaks (h : ∀ fault, ¬ r.Breaks e.lastPc fault) :
    ∃ bytes e', e.call (.write r) = .ok (bytes, e') := by
  cases hcall : e.call (.write r) with
  | ok answer => exact ⟨answer.1, answer.2, rfl⟩
  | error fault =>
    obtain ⟨_, hr, hbreaks⟩ := breaks_of_call hcall
    cases hr
    exact absurd hbreaks (h fault)

/-- Calls are refused at the first one that is, once those before it have been answered. -/
theorem run_eq_error {calls : List Call} (h : e.run calls = .error fault) :
    ∃ before c after bytes mid, calls = before ++ c :: after ∧
      e.run before = .ok (bytes, mid) ∧ mid.call c = .error fault := by
  induction calls generalizing e with
  | nil => cases h
  | cons c calls ih =>
    rcases bind_eq_error.1 h with hcall | ⟨⟨first, mid⟩, hcall, h⟩
    · exact ⟨[], c, calls, [], e, rfl, rfl, hcall⟩
    rcases bind_eq_error.1 h with hrun | ⟨rest, -, h⟩
    · obtain ⟨before, c', after, more, last, rfl, hbefore, hrefused⟩ := ih hrun
      refine ⟨c :: before, c', after, first ++ more, last, rfl, ?_, hrefused⟩
      exact run_cons_eq_ok.2 ⟨first, mid, more, hcall, hbefore, rfl⟩
    · cases h

end Encoder

/-! ## Calls on a buffer -/

namespace Writer

variable {w w' : Writer} {buffer buffer' : ByteArray} {fault : Fault}

theorem append_of_error {r : Record} (h : w.encoder.add r = .error fault) :
    w.append buffer r = .error fault :=
  bind_eq_error.2 (Or.inl h)

/-- A call that is refused by the encoder is refused for the same reason. -/
theorem call_of_error {c : Call} (h : w.encoder.call c = .error fault)
    (hlow : w.encoder.heldBytes.length ≤ w.pos) (hpos : w.pos ≤ buffer.size) :
    w.call buffer c = .error fault := by
  cases c with
  | finish => cases h
  | write r =>
    by_cases hmode : r.mode = .position
    · rw [Encoder.call, if_pos hmode] at h
      exact (write_position hmode).trans (append_of_error h)
    · rw [Encoder.call, if_neg hmode] at h
      rcases bind_eq_error.1 h with hadd | ⟨added, -, h⟩
      · obtain ⟨mid, between, hfinish⟩ := finish_of_room hlow hpos
        obtain ⟨-, hencoder⟩ := finish_inv hfinish
        rw [← hencoder] at hadd
        refine (write_other hmode).trans (bind_eq_error.2 (Or.inr ⟨_, hfinish, ?_⟩))
        exact append_of_error hadd
      · cases h

/-- Calls that are refused by the encoder are refused for the same reason, where there is room for
those in front. -/
theorem run_of_error {calls : List Call} (hw : w.encoder.Sound)
    (h : w.encoder.run calls = .error fault)
    (hlow : w.encoder.heldBytes.length + calls.length * maxRecordSize ≤ w.pos)
    (hpos : w.pos ≤ buffer.size) : w.run buffer calls = .error fault := by
  -- each call in front of the refused one leaves the room for those that are still to come
  induction calls generalizing w buffer with
  | nil => cases h
  | cons c calls ih =>
    rw [List.length_cons, Nat.succ_mul] at hlow
    rcases bind_eq_error.1 h with hcall | ⟨⟨first, next⟩, hcall, h⟩
    · exact bind_eq_error.2 (Or.inl (call_of_error hcall (by omega) hpos))
    rcases bind_eq_error.1 h with hrun | ⟨rest, -, h⟩
    · have hlength := length_call_le hw hcall
      obtain ⟨mid, between, hmid⟩ := call_of_room hw hcall (by omega) hpos
      obtain ⟨placed, hplaced, hbetween⟩ := call_inv hmid
      cases hcall.symm.trans hplaced
      have hlowest := hbetween.low_add
      have hsize := hbetween.size_eq
      exact bind_eq_error.2 (Or.inr ⟨_, hmid, ih (hw.call hcall) hrun (by omega) (by omega)⟩)
    · cases h

end Writer

/-! ## Whole streams -/

theorem written_callsOf (records : List Record) : written (callsOf records) = records := by
  rw [callsOf, written_append, written_map_write, written, written, List.append_nil]

/-- The room that is set aside for a list of records. -/
def capacityFor (records : List Record) : Nat := (records.length + 1) * maxRecordSize

/-- **Records are refused for what their encoder refuses.** The room for them is never the
reason. -/
theorem encode_eq_error {records : List Record} {fault : Fault} :
    encode records = .error fault ↔ Encoder.start.run (callsOf records) = .error fault := by
  -- an encoder that answers gives a stream, so a fault of `encode` has to be one of the encoder
  have hrefused : ∀ other, Encoder.start.run (callsOf records) = .error other →
      encode records = .error other := by
    intro other hrun
    rw [encode_eq_run]
    refine bind_eq_error.2 (Or.inl (Writer.run_of_error .start hrun ?_ ?_))
    · exact Nat.le_of_eq (Nat.zero_add _)
    · exact Nat.le_of_eq (size_copies _ 0).symm
  refine ⟨fun h => ?_, hrefused fault⟩
  cases hrun : Encoder.start.run (callsOf records) with
  | error other =>
    cases (hrefused other hrun).symm.trans h
    rfl
  | ok answer =>
    have hencode := encode_eq_ok.2 ⟨answer.1, answer.2, hrun, bytesOf_toByteArray _⟩
    rw [h] at hencode
    cases hencode

/-- A record of the list breaks the contract of a stream. -/
def Broken (records : List Record) (fault : Fault) : Prop :=
  ∃ before r after, records = before ++ r :: after ∧ r.Breaks (placeAfter before) fault

/-- A list with a record that breaks the contract is not encoded. -/
theorem encode_ne_ok_of_broken {records : List Record} {fault : Fault} (h : Broken records fault)
    (stream : ByteArray) : encode records ≠ .ok stream := by
  obtain ⟨before, r, after, rfl, hbreaks⟩ := h
  intro hencode
  obtain ⟨bytes, e', hrun, -⟩ := encode_eq_ok.1 hencode
  rw [callsOf, List.map_append, List.append_assoc, List.map_cons, List.cons_append] at hrun
  obtain ⟨first, mid, more, hbefore, hmore, -⟩ := Encoder.run_append_eq_ok.1 hrun
  obtain ⟨added, next, last, hcall, -, -⟩ := Encoder.run_cons_eq_ok.1 hmore
  -- the encoder has come to the place of the last record in front
  have hplace := (Encoder.lastPc_run hbefore).2
  rw [written_map_write] at hplace
  have hplace : mid.lastPc = placeAfter before := hplace
  rw [← hplace] at hbreaks
  exact Encoder.not_breaks_of_call hcall hbreaks

/-- A list that is not encoded has a record that breaks the contract, in the way that the fault
says. -/
theorem broken_of_encode {records : List Record} {fault : Fault}
    (h : encode records = .error fault) : Broken records fault := by
  obtain ⟨before, c, after, bytes, mid, hcalls, hbefore, hcall⟩ :=
    Encoder.run_eq_error (encode_eq_error.1 h)
  obtain ⟨r, rfl, hbreaks⟩ := Encoder.breaks_of_call hcall
  refine ⟨written before, r, written after, ?_, ?_⟩
  · rw [← written_callsOf records, hcalls, written_append, written]
  · rw [(Encoder.lastPc_run hbefore).2] at hbreaks
    exact hbreaks

/-- The writer stands inside its buffer. Below it there is room for the position that is held back,
for as many records as are ahead, and for one more. -/
structure Writer.HasRoom (ahead : Nat) (w : Writer) (buffer : ByteArray) : Prop where
  inside : w.pos ≤ buffer.size
  below : w.encoder.heldBytes.length + (ahead + 1) * maxRecordSize ≤ w.pos

/-- Wherever a list that is encoded is cut in two, the writer has come to the cut with room left,
and writes the record behind it into at most `maxRecordSize` bytes, a position that is held back
counted when it is brought. -/
theorem room_of_encode {before after : List Record} {stream : ByteArray}
    (h : encode (before ++ after) = .ok stream) :
    ∃ w buffer,
      (Writer.new (capacityFor (before ++ after))).writeAll
          (copies (capacityFor (before ++ after)) 0) before = .ok (w, buffer) ∧
        w.HasRoom after.length buffer ∧
        ∀ r ∈ after.head?, ∃ w' buffer', w.write buffer r = .ok (w', buffer') ∧
          w.pos + w'.encoder.heldBytes.length ≤
            w'.pos + w.encoder.heldBytes.length + maxRecordSize := by
  obtain ⟨bytes, e', hrun, -⟩ := encode_eq_ok.1 h
  rw [callsOf, List.map_append, List.append_assoc] at hrun
  obtain ⟨first, mid, more, hbefore, hmore, -⟩ := Encoder.run_append_eq_ok.1 hrun
  -- behind the records that are written there is room for those that are ahead and for one more
  have hcapacity : capacityFor (before ++ after) =
      before.length * maxRecordSize + (after.length + 1) * maxRecordSize := by
    rw [capacityFor, List.length_append, Nat.add_assoc, Nat.add_mul]
  generalize capacityFor (before ++ after) = capacity at hcapacity ⊢
  have hlength := length_run_le .start hbefore
  have hstart : Encoder.start.heldBytes.length = 0 := rfl
  rw [List.length_map] at hlength
  have hsize := size_copies capacity 0
  have hanswers : ∃ w buffer, (Writer.new capacity).run (copies capacity 0) (before.map .write) =
      .ok (w, buffer) := by
    refine Writer.run_of_room .start hbefore ?_ (Nat.le_of_eq hsize.symm)
    change first.length ≤ capacity
    omega
  obtain ⟨w, buffer, hwriter⟩ := hanswers
  obtain ⟨placed, hplaced, hbuffer⟩ := Writer.run_inv hwriter
  cases hbefore.symm.trans hplaced
  have hlow : w.pos + first.length = capacity := hbuffer.low_add
  have hinside := hbuffer.size_eq
  have hroom : w.HasRoom after.length buffer := ⟨by omega, by omega⟩
  refine ⟨w, buffer, (Writer.writeAll_eq_run before).trans hwriter, hroom, ?_⟩
  intro r hr
  obtain ⟨later, rfl⟩ : ∃ later, after = r :: later := by
    cases after with
    | nil => cases hr
    | cons r' later =>
      cases hr
      exact ⟨later, rfl⟩
  rw [List.map_cons, List.cons_append] at hmore
  obtain ⟨added, next, last, hcall, -, -⟩ := Encoder.run_cons_eq_ok.1 hmore
  have hsound := Encoder.Sound.start.run hbefore
  have hadded := length_call_le hsound hcall
  have hbelow := hroom.below
  rw [Nat.succ_mul] at hbelow
  obtain ⟨w', buffer', hwrite⟩ := Writer.call_of_room hsound hcall (by omega) hroom.inside
  obtain ⟨_, hnext, hplaced'⟩ := Writer.call_inv hwrite
  cases hcall.symm.trans hnext
  have hlow' := hplaced'.low_add
  exact ⟨w', buffer', hwrite, by omega⟩

/-- What is encoded is made of forms that keep their checks, the first one at the end. -/
theorem formed_of_encode {records : List Record} {stream : ByteArray}
    (h : encode records = .ok stream) :
    ∃ bytes, bytesOf stream = bytes.reverse ∧ MadeOfForms bytes := by
  obtain ⟨bytes, e', hrun, hbytes⟩ := encode_eq_ok.1 h
  exact ⟨bytes, hbytes, Encoder.formed_run .start hrun⟩

/-- **A list is encoded exactly when its records keep the contract.** A fault is always the
contract that was broken: the room that is set aside is never used up, no record comes out longer
than a record may, and every form keeps the checks on its bytes. -/
theorem encode_faults_iff (records : List Record) :
    ((∃ fault, encode records = .error fault) ↔ ∃ fault, Broken records fault) ∧
      (∀ fault, encode records = .error fault → Broken records fault) ∧
      ((∀ fault, ¬ Broken records fault) →
        (∃ stream bytes, encode records = .ok stream ∧ bytesOf stream = bytes.reverse ∧
          MadeOfForms bytes) ∧
        ∀ before after, records = before ++ after →
          ∃ w buffer,
            (Writer.new (capacityFor records)).writeAll (copies (capacityFor records) 0) before =
                .ok (w, buffer) ∧
              w.HasRoom after.length buffer ∧
              ∀ r ∈ after.head?, ∃ w' buffer', w.write buffer r = .ok (w', buffer') ∧
                w.pos + w'.encoder.heldBytes.length ≤
                  w'.pos + w.encoder.heldBytes.length + maxRecordSize) := by
  refine ⟨⟨?_, ?_⟩, ?_, ?_⟩
  · rintro ⟨fault, h⟩
    exact ⟨fault, broken_of_encode h⟩
  · rintro ⟨fault, hbroken⟩
    cases hencode : encode records with
    | error other => exact ⟨other, rfl⟩
    | ok stream => exact absurd hencode (encode_ne_ok_of_broken hbroken stream)
  · intro fault h
    exact broken_of_encode h
  · intro hkept
    cases hencode : encode records with
    | error fault => exact absurd (broken_of_encode hencode) (hkept fault)
    | ok stream =>
      obtain ⟨bytes, hbytes, hforms⟩ := formed_of_encode hencode
      refine ⟨⟨stream, bytes, rfl, hbytes, hforms⟩, ?_⟩
      rintro before after rfl
      exact room_of_encode hencode

/-- Behind a position, a reason of 64 is refused. A reason of 63 is encoded, and the position is
still held back when it comes. -/
theorem encode_faults_iff_reason :
    Broken [⟨7, .position, 100⟩, ⟨7, .deoptReason, 64⟩] (.reasonTooWide 64) ∧
      ∃ w buffer,
        (Writer.new 45).writeAll (copies 45 0) [⟨7, .position, 100⟩] = .ok (w, buffer) ∧
          w.HasRoom 1 buffer := by
  have hwide := encode_faults_iff [⟨7, .position, 100⟩, ⟨7, .deoptReason, 64⟩]
  have hfits := encode_faults_iff [⟨7, .position, 100⟩, ⟨7, .deoptReason, 63⟩]
  refine ⟨hwide.2.1 _ (by decide +kernel), ?_⟩
  have hencode : encode [⟨7, .position, 100⟩, ⟨7, .deoptReason, 63⟩] =
      .ok ⟨#[255, 2, 0, 0, 0, 100, 7, 35]⟩ := by
    decide +kernel
  have hkept : ∀ fault, ¬ Broken [⟨7, .position, 100⟩, ⟨7, .deoptReason, 63⟩] fault := by
    intro fault hbroken
    obtain ⟨other, hrefused⟩ := hfits.1.2 ⟨fault, hbroken⟩
    rw [hencode] at hrefused
    cases hrefused
  obtain ⟨w, buffer, hwritten, hroom, -⟩ :=
    (hfits.2.2 hkept).2 [⟨7, .position, 100⟩] [⟨7, .deoptReason, 63⟩] rfl
  exact ⟨w, buffer, hwritten, hroom⟩

end CodeReloc
