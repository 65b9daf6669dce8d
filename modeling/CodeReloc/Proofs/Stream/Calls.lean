import CodeReloc.Proofs.Stream.Adding

set_option autoImplicit false

/-!
# Calls of a writer

A writer is an encoder whose bytes go into a buffer. `Call` lists what can be asked of it, and
`Encoder.run` says which bytes a list of calls stands for, without a buffer. A writer that answers
has put exactly these bytes below the place where it was, and has changed nothing else
(`Writer.run_inv`); where there is room, it answers as soon as its encoder does
(`Writer.run_of_room`). A call takes at most `maxRecordSize` bytes when a position that is held back
is counted as soon as it is held (`length_run_le`), so `encode` always has room (`encode_eq_ok`).

Main statements: `Writer.run_inv`, `Writer.run_of_room`, `length_run_le` and `encode_eq_ok`.
-/

namespace CodeReloc

/-! ## Placed bytes -/

/-- The bytes stand below `pos`, the first one highest, and the rest of the buffer is as before. -/
structure Placed (bytes : List UInt8) (pos : Nat) (buffer : ByteArray) (low : Nat)
    (buffer' : ByteArray) : Prop where
  low_add : low + bytes.length = pos
  inside : bytes = [] ∨ pos ≤ buffer.size
  content : bytesOf buffer' =
    (bytesOf buffer).take low ++ bytes.reverse ++ (bytesOf buffer).drop pos

namespace Placed

theorem nil (pos : Nat) (buffer : ByteArray) : Placed [] pos buffer pos buffer := by
  refine ⟨rfl, Or.inl rfl, ?_⟩
  rw [List.reverse_nil, List.append_nil, List.take_append_drop]

variable {bytes : List UInt8} {pos low : Nat} {buffer buffer' : ByteArray}

theorem size_eq (h : Placed bytes pos buffer low buffer') : buffer'.size = buffer.size := by
  have hlow := h.low_add
  rw [← length_bytesOf, h.content]
  simp only [List.length_append, List.length_take, List.length_reverse, List.length_drop,
    length_bytesOf]
  -- without bytes the place may lie outside the buffer, and nothing has changed
  rcases h.inside with rfl | hpos
  · rw [List.length_nil] at hlow ⊢
    omega
  · omega

/-- What lies below the bytes is as before. -/
theorem take_eq (h : Placed bytes pos buffer low buffer') {n : Nat} (hn : n ≤ low) :
    (bytesOf buffer').take n = (bytesOf buffer).take n := by
  have hlow := h.low_add
  rcases h.inside with rfl | hpos
  · have hsame : low = pos := hlow
    rw [h.content, hsame, List.reverse_nil, List.append_nil, List.take_append_drop]
  · have hlength : n ≤ ((bytesOf buffer).take low).length := by
      rw [List.length_take, length_bytesOf]
      omega
    rw [h.content, List.append_assoc, List.take_append_of_le_length hlength, List.take_take,
      Nat.min_eq_left hn]

/-- The bytes stand in front of what lay above them. -/
theorem drop_eq (h : Placed bytes pos buffer low buffer') :
    (bytesOf buffer').drop low = bytes.reverse ++ (bytesOf buffer).drop pos := by
  have hlow := h.low_add
  rcases h.inside with rfl | hpos
  · have hsame : low = pos := hlow
    rw [h.content, hsame, List.reverse_nil, List.append_nil, List.take_append_drop, List.nil_append]
  · have hlength : ((bytesOf buffer).take low).length = low := by
      rw [List.length_take, length_bytesOf]
      omega
    rw [h.content, List.append_assoc]
    exact List.drop_left' hlength

/-- What lies above the bytes is as before. -/
theorem above_eq (h : Placed bytes pos buffer low buffer') :
    (bytesOf buffer').drop pos = (bytesOf buffer).drop pos := by
  calc (bytesOf buffer').drop pos
      = ((bytesOf buffer').drop low).drop bytes.length := by rw [List.drop_drop, h.low_add]
    _ = (bytesOf buffer).drop pos := by
        rw [h.drop_eq]
        exact List.drop_left' List.length_reverse

theorem trans {more : List UInt8} {mid : Nat} {buffer'' : ByteArray}
    (h : Placed bytes pos buffer mid buffer') (h' : Placed more mid buffer' low buffer'') :
    Placed (bytes ++ more) pos buffer low buffer'' := by
  have hmid := h.low_add
  have hlow := h'.low_add
  refine ⟨?_, ?_, ?_⟩
  · rw [List.length_append]
    omega
  · rcases h.inside with rfl | hpos
    · rcases h'.inside with rfl | hinside
      · exact Or.inl rfl
      · rw [h.size_eq] at hinside
        exact Or.inr (by rw [List.length_nil] at hmid; omega)
    · exact Or.inr hpos
  · rw [h'.content, h.take_eq (by omega), h.drop_eq, List.reverse_append]
    simp only [List.append_assoc]

/-- Where bytes go, and what they leave behind, is determined. -/
theorem unique {low' : Nat} {buffer'' : ByteArray} (h : Placed bytes pos buffer low buffer')
    (h' : Placed bytes pos buffer low' buffer'') : low = low' ∧ buffer' = buffer'' := by
  have hlow := h.low_add
  have hlow' := h'.low_add
  have hsame : low = low' := by omega
  subst hsame
  exact ⟨rfl, bytesOf_injective (h.content.trans h'.content.symm)⟩

/-- The placed bytes, cut out. -/
theorem extract_eq {stop : Nat} (h : Placed bytes stop buffer low buffer') :
    bytesOf (buffer'.extract low stop) = bytes.reverse := by
  have hlow := h.low_add
  rw [bytesOf_extract, List.drop_take, h.drop_eq]
  have hlength : stop - low = bytes.reverse.length := by
    rw [List.length_reverse]
    omega
  rw [hlength, List.take_left]

end Placed

/-- Bytes that have been laid into a buffer are in place. -/
theorem placed_of_place {bytes : List UInt8} {pos low : Nat} {buffer buffer' : ByteArray}
    (h : place bytes pos buffer = .ok (low, buffer')) : Placed bytes pos buffer low buffer' := by
  unfold place at h
  split at h
  · rename_i hempty
    rw [List.isEmpty_iff] at hempty
    cases h
    rw [hempty]
    exact .nil _ _
  · split at h
    · rename_i hroom
      cases h
      refine ⟨by omega, Or.inr hroom.2, ?_⟩
      have hsize : bytes.reverse.toByteArray.size = bytes.length := by
        rw [← length_bytesOf, bytesOf_toByteArray, List.length_reverse]
      rw [bytesOf_overlay, bytesOf_toByteArray, hsize, Nat.sub_add_cancel hroom.1]
    · cases h

/-- Bytes can be laid into a buffer where there is room for them. -/
theorem place_of_room {bytes : List UInt8} {pos : Nat} {buffer : ByteArray}
    (hlow : bytes.length ≤ pos) (hpos : pos ≤ buffer.size) :
    ∃ low buffer', place bytes pos buffer = .ok (low, buffer') := by
  unfold place
  split
  · exact ⟨_, _, rfl⟩
  · rw [if_pos ⟨hlow, hpos⟩]
    exact ⟨_, _, rfl⟩

/-! ## Calls -/

/-- What can be asked of a writer. -/
inductive Call where
  | write (record : Record)
  | finish
  deriving DecidableEq, Repr

/-- All records that are written by calls. -/
def written : List Call → List Record
  | [] => []
  | .finish :: calls => written calls
  | .write r :: calls => r :: written calls

theorem written_map_write (records : List Record) : written (records.map .write) = records := by
  induction records with
  | nil => rfl
  | cons r records ih => rw [List.map_cons, written, ih]

theorem written_append (calls later : List Call) :
    written (calls ++ later) = written calls ++ written later := by
  induction calls with
  | nil => rfl
  | cons c calls ih =>
    cases c with
    | finish => exact ih
    | write r => exact congrArg (r :: ·) ih

namespace Encoder

/-- The bytes of a call and the state after it. -/
def call (e : Encoder) : Call → Except Fault (List UInt8 × Encoder)
  | .write r =>
    if r.mode = .position then
      e.add r
    else
      e.release.add r >>= fun (bytes, next) => .ok (e.heldBytes ++ bytes, next)
  | .finish => .ok (e.heldBytes, e.release)

/-- The bytes of calls one after the other. -/
def run (e : Encoder) : List Call → Except Fault (List UInt8 × Encoder)
  | [] => .ok ([], e)
  | c :: calls => do
    let (bytes, e) ← e.call c
    let (more, e) ← e.run calls
    return (bytes ++ more, e)

variable {e e' : Encoder} {bytes : List UInt8}

/-- A record that is no position is added once nothing is held back. -/
theorem call_write_inv {r : Record} (h : e.call (.write r) = .ok (bytes, e')) :
    (r.mode = .position ∧ e.add r = .ok (bytes, e')) ∨
      (r.mode ≠ .position ∧ ∃ added, bytes = e.heldBytes ++ added ∧
        e.release.add r = .ok (added, e')) := by
  by_cases hmode : r.mode = .position
  · rw [call, if_pos hmode] at h
    exact Or.inl ⟨hmode, h⟩
  · rw [call, if_neg hmode] at h
    obtain ⟨⟨added, next⟩, hadd, h⟩ := bind_eq_ok.1 h
    cases h
    exact Or.inr ⟨hmode, added, rfl, hadd⟩

theorem run_cons_eq_ok {c : Call} {calls : List Call} :
    e.run (c :: calls) = .ok (bytes, e') ↔
      ∃ first mid more, e.call c = .ok (first, mid) ∧ mid.run calls = .ok (more, e') ∧
        bytes = first ++ more := by
  constructor
  · intro h
    obtain ⟨⟨first, mid⟩, hcall, h⟩ := bind_eq_ok.1 h
    obtain ⟨⟨more, last⟩, hrun, h⟩ := bind_eq_ok.1 h
    cases h
    exact ⟨first, mid, more, hcall, hrun, rfl⟩
  · rintro ⟨first, mid, more, hcall, hrun, rfl⟩
    simp only [run, hcall, hrun, bind, Except.bind, pure, Except.pure]

theorem run_append_eq_ok {calls later : List Call} :
    e.run (calls ++ later) = .ok (bytes, e') ↔
      ∃ first mid more, e.run calls = .ok (first, mid) ∧ mid.run later = .ok (more, e') ∧
        bytes = first ++ more := by
  induction calls generalizing e bytes with
  | nil =>
    constructor
    · intro h
      exact ⟨[], e, bytes, rfl, h, rfl⟩
    · rintro ⟨first, mid, more, hfirst, hmore, rfl⟩
      cases hfirst
      exact hmore
  | cons c calls ih =>
    rw [List.cons_append, run_cons_eq_ok]
    constructor
    · rintro ⟨first, mid, more, hcall, hrun, rfl⟩
      obtain ⟨second, mid', last, hsecond, hlast, rfl⟩ := ih.1 hrun
      refine ⟨first ++ second, mid', last, ?_, hlast, (List.append_assoc _ _ _).symm⟩
      exact run_cons_eq_ok.2 ⟨first, mid, second, hcall, hsecond, rfl⟩
    · rintro ⟨first, mid, more, hfirst, hmore, rfl⟩
      obtain ⟨start, mid', second, hcall, hsecond, rfl⟩ := run_cons_eq_ok.1 hfirst
      refine ⟨start, mid', second ++ more, hcall, ?_, List.append_assoc _ _ _⟩
      exact ih.2 ⟨second, mid, more, hsecond, hmore, rfl⟩

/-- One more call puts its bytes behind those of the others. -/
theorem run_concat {mid : Encoder} {calls : List Call} {c : Call} {added : List UInt8}
    (h : e.run calls = .ok (bytes, mid)) (hcall : mid.call c = .ok (added, e')) :
    e.run (calls ++ [c]) = .ok (bytes ++ added, e') := by
  refine run_append_eq_ok.2 ⟨bytes, mid, added, h, ?_, rfl⟩
  exact run_cons_eq_ok.2 ⟨added, e', [], hcall, rfl, (List.append_nil added).symm⟩

/-- The last place is that of the last record, and never lies before an earlier one. -/
theorem lastPc_call {c : Call} (h : e.call c = .ok (bytes, e')) :
    e.lastPc.toNat ≤ e'.lastPc.toNat ∧
      e'.lastPc = ((written [c]).getLast?.map Record.pc).getD e.lastPc := by
  cases c with
  | finish =>
    cases h
    exact ⟨Nat.le_refl _, rfl⟩
  | write r =>
    -- what is brought out before the record does not move the last place
    have hadd : ∃ (before : Encoder) (added : List UInt8),
        before.lastPc = e.lastPc ∧ before.add r = .ok (added, e') := by
      rcases call_write_inv h with ⟨-, hadd⟩ | ⟨-, added, -, hadd⟩
      · exact ⟨e, bytes, rfl, hadd⟩
      · exact ⟨e.release, added, rfl, hadd⟩
    obtain ⟨before, added, hbefore, hadd⟩ := hadd
    obtain ⟨distance, -, hpc, -, hadds⟩ := add_inv hadd
    rw [hbefore] at hpc
    rw [hadds.lastPc_eq]
    exact ⟨by omega, rfl⟩

theorem lastPc_run {calls : List Call} (h : e.run calls = .ok (bytes, e')) :
    e.lastPc.toNat ≤ e'.lastPc.toNat ∧
      e'.lastPc = ((written calls).getLast?.map Record.pc).getD e.lastPc := by
  induction calls generalizing e bytes with
  | nil =>
    cases h
    exact ⟨Nat.le_refl _, rfl⟩
  | cons c calls ih =>
    obtain ⟨first, mid, more, hcall, hrun, -⟩ := run_cons_eq_ok.1 h
    obtain ⟨hfirst, hmid⟩ := lastPc_call hcall
    obtain ⟨hmore, hlast⟩ := ih hrun
    refine ⟨Nat.le_trans hfirst hmore, ?_⟩
    have hsplit : written (c :: calls) = written [c] ++ written calls := written_append [c] calls
    rw [hlast, hmid, hsplit, List.getLast?_append]
    cases (written calls).getLast? with
    | none => rfl
    | some r => rfl

theorem Sound.call (he : e.Sound) {c : Call} (h : e.call c = .ok (bytes, e')) : e'.Sound := by
  cases c with
  | finish =>
    cases h
    exact .release e
  | write r =>
    rcases call_write_inv h with ⟨hmode, hadd⟩ | ⟨hmode, added, -, hadd⟩
    · exact he.add (fun hother => absurd hmode hother) hadd
    · exact (Sound.release e).add (fun _ => rfl) hadd

theorem Sound.run (he : e.Sound) {calls : List Call} (h : e.run calls = .ok (bytes, e')) :
    e'.Sound := by
  induction calls generalizing e bytes with
  | nil =>
    cases h
    exact he
  | cons c calls ih =>
    obtain ⟨first, mid, more, hcall, hrun, -⟩ := run_cons_eq_ok.1 h
    exact ih (he.call hcall) hrun

end Encoder

/-! ## Lengths of calls -/

/-- A position that is held back is paid for by the call that brings it. -/
theorem length_call_le {e e' : Encoder} {c : Call} {bytes : List UInt8} (he : e.Sound)
    (h : e.call c = .ok (bytes, e')) :
    bytes.length + e'.heldBytes.length ≤ e.heldBytes.length + maxRecordSize := by
  have hsound := he.call h
  have hheld := length_heldBytes_le hsound
  have hmax : maxRecordSize = 15 := rfl
  cases c with
  | finish =>
    cases h
    exact Nat.add_le_add_left (Nat.zero_le _) _
  | write r =>
    rcases Encoder.call_write_inv h with ⟨hmode, hadd⟩ | ⟨hmode, added, rfl, hadd⟩
    · obtain ⟨distance, -, -, -, hadds⟩ := Encoder.add_inv hadd
      -- the bytes are those that were held back, and the new position is paid for instead
      rcases (hadds.of_position hmode).2 with ⟨rfl, -, -⟩ | ⟨rfl, -, -⟩
      · omega
      · rw [List.length_nil]
        omega
    · have hadded := length_add_le (.release e) hadd
      have hnone : e'.heldBytes = [] := by
        rw [Encoder.heldBytes, Encoder.held_add hmode hadd, Encoder.release]
      rw [hnone, List.length_append]
      exact Nat.add_le_add_left hadded _

/-- Calls take at most `maxRecordSize` bytes each, what they leave held back included. -/
theorem length_run_le {e e' : Encoder} {calls : List Call} {bytes : List UInt8} (he : e.Sound)
    (h : e.run calls = .ok (bytes, e')) :
    bytes.length + e'.heldBytes.length ≤ e.heldBytes.length + calls.length * maxRecordSize := by
  induction calls generalizing e bytes with
  | nil =>
    cases h
    simp
  | cons c calls ih =>
    obtain ⟨first, mid, more, hcall, hrun, rfl⟩ := Encoder.run_cons_eq_ok.1 h
    have hfirst := length_call_le he hcall
    have hmore := ih (he.call hcall) hrun
    rw [List.length_append, List.length_cons, Nat.succ_mul]
    omega

/-! ## Calls on a buffer -/

namespace Writer

/-- A call. -/
def call (w : Writer) (buffer : ByteArray) : Call → Except Fault (Writer × ByteArray)
  | .write r => w.write buffer r
  | .finish => w.finish buffer

/-- Calls one after the other. -/
def run (w : Writer) (buffer : ByteArray) : List Call → Except Fault (Writer × ByteArray)
  | [] => .ok (w, buffer)
  | c :: calls => w.call buffer c >>= fun (w, buffer) => w.run buffer calls

variable {w w' : Writer} {buffer buffer' : ByteArray}

theorem finish_inv (h : w.finish buffer = .ok (w', buffer')) :
    Placed w.encoder.heldBytes w.pos buffer w'.pos buffer' ∧ w'.encoder = w.encoder.release := by
  obtain ⟨⟨low, placed⟩, hplace, h⟩ := bind_eq_ok.1 h
  cases h
  exact ⟨placed_of_place hplace, rfl⟩

theorem finish_of_room (hlow : w.encoder.heldBytes.length ≤ w.pos) (hpos : w.pos ≤ buffer.size) :
    ∃ w' buffer', w.finish buffer = .ok (w', buffer') := by
  obtain ⟨low, placed, hplace⟩ := place_of_room hlow hpos
  exact ⟨_, _, bind_eq_ok.2 ⟨_, hplace, rfl⟩⟩

/-- Writes a record in front of which nothing has to be brought out. -/
def append (w : Writer) (buffer : ByteArray) (r : Record) : Except Fault (Writer × ByteArray) := do
  let (bytes, encoder) ← w.encoder.add r
  let (pos, buffer) ← place bytes w.pos buffer
  require (bytes.length ≤ maxRecordSize) .breach
  return (⟨pos, encoder⟩, buffer)

theorem write_position {r : Record} (hmode : r.mode = .position) :
    w.write buffer r = w.append buffer r := if_pos hmode

theorem write_other {r : Record} (hmode : r.mode ≠ .position) :
    w.write buffer r = w.finish buffer >>= fun (w, buffer) => w.append buffer r := if_neg hmode

theorem append_inv {r : Record} (h : w.append buffer r = .ok (w', buffer')) :
    ∃ bytes, w.encoder.add r = .ok (bytes, w'.encoder) ∧
      Placed bytes w.pos buffer w'.pos buffer' := by
  obtain ⟨⟨bytes, next⟩, hadd, h⟩ := bind_eq_ok.1 h
  obtain ⟨⟨low, placed⟩, hplace, h⟩ := bind_eq_ok.1 h
  obtain ⟨-, h⟩ := require_bind_eq_ok.1 h
  cases h
  exact ⟨bytes, hadd, placed_of_place hplace⟩

theorem append_of_room {r : Record} {bytes : List UInt8} {e' : Encoder} (hw : w.encoder.Sound)
    (h : w.encoder.add r = .ok (bytes, e')) (hlow : bytes.length ≤ w.pos)
    (hpos : w.pos ≤ buffer.size) : ∃ w' buffer', w.append buffer r = .ok (w', buffer') := by
  obtain ⟨low, placed, hplace⟩ := place_of_room hlow hpos
  have hlength := decide_eq_true (length_add_le hw h)
  refine ⟨⟨low, e'⟩, placed, bind_eq_ok.2 ⟨_, h, bind_eq_ok.2 ⟨_, hplace, ?_⟩⟩⟩
  exact require_bind_eq_ok.2 ⟨hlength, rfl⟩

/-- A call that answers has placed the bytes of its encoder. -/
theorem call_inv {c : Call} (h : w.call buffer c = .ok (w', buffer')) :
    ∃ bytes, w.encoder.call c = .ok (bytes, w'.encoder) ∧
      Placed bytes w.pos buffer w'.pos buffer' := by
  cases c with
  | finish =>
    obtain ⟨hplaced, hencoder⟩ := finish_inv h
    exact ⟨_, congrArg (fun e => Except.ok (_, e)) hencoder.symm, hplaced⟩
  | write r =>
    by_cases hmode : r.mode = .position
    · obtain ⟨bytes, hadd, hplaced⟩ := append_inv ((write_position hmode).symm.trans h)
      exact ⟨bytes, (if_pos hmode).trans hadd, hplaced⟩
    · obtain ⟨⟨mid, between⟩, hfinish, h⟩ := bind_eq_ok.1 ((write_other hmode).symm.trans h)
      obtain ⟨hplaced, hencoder⟩ := finish_inv hfinish
      obtain ⟨bytes, hadd, hrest⟩ := append_inv h
      rw [hencoder] at hadd
      refine ⟨w.encoder.heldBytes ++ bytes, (if_neg hmode).trans ?_, hplaced.trans hrest⟩
      exact bind_eq_ok.2 ⟨_, hadd, rfl⟩

/-- A call answers where there is room for the bytes of its encoder. -/
theorem call_of_room {c : Call} {bytes : List UInt8} {e' : Encoder} (hw : w.encoder.Sound)
    (h : w.encoder.call c = .ok (bytes, e')) (hlow : bytes.length ≤ w.pos)
    (hpos : w.pos ≤ buffer.size) : ∃ w' buffer', w.call buffer c = .ok (w', buffer') := by
  cases c with
  | finish =>
    cases h
    exact finish_of_room hlow hpos
  | write r =>
    rcases Encoder.call_write_inv h with ⟨hmode, hadd⟩ | ⟨hmode, added, rfl, hadd⟩
    · obtain ⟨w', buffer', happend⟩ := append_of_room hw hadd hlow hpos
      exact ⟨w', buffer', (write_position hmode).trans happend⟩
    · rw [List.length_append] at hlow
      have hheld : w.encoder.heldBytes.length ≤ w.pos := by omega
      obtain ⟨mid, between, hfinish⟩ := finish_of_room hheld hpos
      obtain ⟨hplaced, hencoder⟩ := finish_inv hfinish
      -- the record goes below the position that has just been brought out
      have hmid := hplaced.low_add
      have hadded : added.length ≤ mid.pos := by omega
      have hbetween : mid.pos ≤ between.size := by
        rw [hplaced.size_eq]
        omega
      rw [← hencoder] at hadd
      have hsound : mid.encoder.Sound := hencoder ▸ .release w.encoder
      obtain ⟨w', buffer', happend⟩ := append_of_room hsound hadd hadded hbetween
      exact ⟨w', buffer', (write_other hmode).trans (bind_eq_ok.2 ⟨_, hfinish, happend⟩)⟩

/-- **Calls that answer have placed the bytes of their encoder, and nothing else.** -/
theorem run_inv {calls : List Call} (h : w.run buffer calls = .ok (w', buffer')) :
    ∃ bytes, w.encoder.run calls = .ok (bytes, w'.encoder) ∧
      Placed bytes w.pos buffer w'.pos buffer' := by
  induction calls generalizing w buffer with
  | nil =>
    cases h
    exact ⟨[], rfl, .nil _ _⟩
  | cons c calls ih =>
    obtain ⟨⟨mid, between⟩, hcall, h⟩ := bind_eq_ok.1 h
    obtain ⟨first, hfirst, hplaced⟩ := call_inv hcall
    obtain ⟨more, hmore, hrest⟩ := ih h
    exact ⟨first ++ more, Encoder.run_cons_eq_ok.2 ⟨first, _, more, hfirst, hmore, rfl⟩,
      hplaced.trans hrest⟩

/-- **Calls answer where there is room for the bytes of their encoder.** -/
theorem run_of_room {calls : List Call} {bytes : List UInt8} {e' : Encoder}
    (hw : w.encoder.Sound) (h : w.encoder.run calls = .ok (bytes, e'))
    (hlow : bytes.length ≤ w.pos) (hpos : w.pos ≤ buffer.size) :
    ∃ w' buffer', w.run buffer calls = .ok (w', buffer') := by
  induction calls generalizing w buffer bytes with
  | nil => exact ⟨_, _, rfl⟩
  | cons c calls ih =>
    obtain ⟨first, next, more, hfirst, hmore, rfl⟩ := Encoder.run_cons_eq_ok.1 h
    rw [List.length_append] at hlow
    obtain ⟨mid, between, hcall⟩ := call_of_room hw hfirst (by omega) hpos
    obtain ⟨placed, hplaced, hbetween⟩ := call_inv hcall
    cases hfirst.symm.trans hplaced
    have hmid := hbetween.low_add
    have hroom : mid.pos ≤ between.size := by
      rw [hbetween.size_eq]
      omega
    obtain ⟨w', buffer', hrun⟩ := ih (hw.call hfirst) hmore (by omega) hroom
    exact ⟨w', buffer', bind_eq_ok.2 ⟨_, hcall, hrun⟩⟩

theorem run_append (calls later : List Call) :
    w.run buffer (calls ++ later) =
      w.run buffer calls >>= fun (w, buffer) => w.run buffer later := by
  induction calls generalizing w buffer with
  | nil => rfl
  | cons c calls ih =>
    rw [List.cons_append, run, run]
    cases w.call buffer c with
    | error fault => rfl
    | ok answer => exact ih

theorem run_singleton (c : Call) : w.run buffer [c] = w.call buffer c := by
  rw [run]
  cases w.call buffer c with
  | error fault => rfl
  | ok answer => rfl

theorem writeAll_eq_run (records : List Record) :
    w.writeAll buffer records = w.run buffer (records.map .write) := by
  induction records generalizing w buffer with
  | nil => rfl
  | cons r records ih =>
    rw [List.map_cons, run, call, writeAll]
    cases w.write buffer r with
    | error fault => rfl
    | ok answer => exact ih

theorem writeAll_bind_finish (records : List Record) :
    (w.writeAll buffer records >>= fun (w, buffer) => w.finish buffer) =
      w.run buffer (records.map .write ++ [.finish]) := by
  simp only [writeAll_eq_run, run_append, run_singleton, call]

end Writer

/-! ## Whole streams -/

/-- The calls that a list of records stands for. -/
def callsOf (records : List Record) : List Call := records.map .write ++ [.finish]

theorem length_callsOf (records : List Record) : (callsOf records).length = records.length + 1 := by
  rw [callsOf, List.length_append, List.length_map, List.length_singleton]

theorem encode_eq_run (records : List Record) :
    encode records =
      (Writer.new ((callsOf records).length * maxRecordSize)).run
          (copies ((callsOf records).length * maxRecordSize) 0) (callsOf records) >>=
        fun (w, buffer) => .ok (buffer.extract w.pos buffer.size) := by
  rw [length_callsOf, callsOf, ← Writer.writeAll_bind_finish, encode, bind_assoc]
  rfl

/-- **Records are encoded by the bytes of their calls, lowest index first.** There is room for any
list of them. -/
theorem encode_eq_ok {records : List Record} {stream : ByteArray} :
    encode records = .ok stream ↔
      ∃ bytes e', Encoder.start.run (callsOf records) = .ok (bytes, e') ∧
        bytesOf stream = bytes.reverse := by
  rw [encode_eq_run]
  generalize hcapacity : (callsOf records).length * maxRecordSize = capacity
  constructor
  · intro h
    obtain ⟨⟨w, buffer⟩, hrun, h⟩ := bind_eq_ok.1 h
    cases h
    obtain ⟨bytes, hbytes, hplaced⟩ := Writer.run_inv hrun
    refine ⟨bytes, w.encoder, hbytes, ?_⟩
    rw [hplaced.size_eq, size_copies]
    exact hplaced.extract_eq
  · rintro ⟨bytes, e', hbytes, hstream⟩
    -- the capacity is one record for each call, the last one included
    have hlength := length_run_le .start hbytes
    rw [hcapacity] at hlength
    have hheld : Encoder.start.heldBytes.length = 0 := rfl
    have hroom : bytes.length ≤ capacity := by omega
    have hsize : capacity ≤ (copies capacity 0).size := Nat.le_of_eq (size_copies capacity 0).symm
    obtain ⟨w, buffer, hrun⟩ := Writer.run_of_room (w := .new capacity) .start hbytes hroom hsize
    obtain ⟨placed, hplaced, hbuffer⟩ := Writer.run_inv hrun
    cases hbytes.symm.trans hplaced
    refine bind_eq_ok.2 ⟨_, hrun, congrArg Except.ok (bytesOf_injective ?_)⟩
    rw [hbuffer.size_eq, size_copies, hstream]
    exact hbuffer.extract_eq

end CodeReloc
