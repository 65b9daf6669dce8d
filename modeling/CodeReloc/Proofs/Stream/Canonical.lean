import CodeReloc.Proofs.Stream.Contract
import CodeReloc.Proofs.Stream.RoundTrip

set_option autoImplicit false

/-!
# Encoding what was read

Reading a stream back does not give the records that it was encoded from: replaced positions are
gone, and data that a mode has no room for is lost. Neither leaves a trace in the bytes. An encoder
never looks at data that it does not write (`Encoder.add_readBack`), and of two positions at one
place the second one alone is added as both of them are, since the differences of the pair sum up to
the one difference of the second (`Encoder.add_of_replaced`). So what was read is encoded again, and
to the same stream.

Main statements: `encode_map_readBack` and `encode_walkStream`.
-/

namespace CodeReloc

namespace Encoder

variable {e mid e' : Encoder} {bytes first more : List UInt8}

/-! ## Lost data -/

/-- A record is added as what it reads back as. -/
theorem add_readBack (r : Record) : e.add (r.readBack 0) = e.add r := by
  obtain ⟨pc, mode, data⟩ := r
  have hpc : (0 : UInt64) + pc = pc := UInt64.zero_add pc
  -- data that was cut down to 32 bits is cut down again, and nothing is left to cut
  cases mode <;> simp only [Record.readBack, hpc] <;> simp [add, distanceTo, Mode.payload]

theorem call_readBack (r : Record) : e.call (.write (r.readBack 0)) = e.call (.write r) := by
  simp only [call, add_readBack]
  rfl

theorem run_readBack (records : List Record) :
    e.run (callsOf (records.map (Record.readBack 0))) = e.run (callsOf records) := by
  induction records generalizing e with
  | nil => rfl
  | cons r records ih =>
    simp only [callsOf, List.map_cons, List.cons_append, run, call_readBack] at ih ⊢
    simp only [ih]

/-! ## Replaced positions -/

/-- A position that replaces the one in front of it is added as if the other one had never been
there. -/
theorem add_of_replaced {r next : Record} (hmode : r.mode = .position)
    (hnext : next.mode = .position) (hpc : next.pc = r.pc) (hr : e.add r = .ok (first, mid))
    (h : mid.add next = .ok (more, e')) : e.add next = .ok (first ++ more, e') := by
  obtain ⟨distance, -, hplace, hlt, hadds⟩ := add_inv hr
  obtain ⟨stay, hwritable, hstay, -, hadds'⟩ := add_inv h
  rw [hadds.lastPc_eq, hpc] at hstay
  have hzero : stay = 0 := by omega
  have hlast : mid.lastMode = some .position := by
    rcases (hadds.of_position hmode).2 with ⟨-, -, rfl⟩ | ⟨-, -, rfl⟩ <;> exact congrArg some hmode
  -- the second position takes the place of the first one and brings nothing out
  obtain ⟨hword, ⟨-, hnew, -⟩ | ⟨rfl, -, rfl⟩⟩ := hadds'.of_position hnext
  · exact absurd hnew (not_or.2 ⟨not_not_intro hzero, not_not_intro hlast⟩)
  rw [List.append_nil]
  apply add_of_adds hwritable (hpc ▸ hplace) hlt
  -- alone, it goes the way that the first one has gone
  have hsum : r.data.toInt32 - e.lastPosition + (next.data.toInt32 - r.data.toInt32) =
      next.data.toInt32 - e.lastPosition := by
    grind
  rcases (hadds.of_position hmode).2 with ⟨rfl, hnew, rfl⟩ | ⟨rfl, ⟨hsame, hbefore⟩, rfl⟩
  · have halone : Adds e next distance e.heldBytes _ := .newPosition hnext hword hnew
    rw [← hsum] at halone
    exact halone
  · have halone : Adds e next distance [] _ := .samePosition hnext hword hsame hbefore
    rw [← hsum, replaced, ← Int32.add_assoc] at halone
    exact halone

/-- Records that are replaced change nothing in what the calls stand for. -/
theorem run_kept {records : List Record} (h : e.run (callsOf records) = .ok (bytes, e')) :
    e.run (callsOf (kept (records.map .write))) = .ok (bytes, e') := by
  induction records generalizing e bytes with
  | nil => exact h
  | cons r records ih =>
    obtain ⟨first, mid, more, hcall, hrun, rfl⟩ := run_cons_eq_ok.1 h
    rw [List.map_cons, kept]
    split
    · rename_i hreplaced
      cases records with
      | nil => cases hreplaced
      | cons next records =>
        -- the next record is added in the place of both, and the others follow as before
        simp only [List.map_cons, replacedBy, Bool.and_eq_true, beq_iff_eq] at hreplaced
        obtain ⟨⟨hmode, hnext⟩, hpc⟩ := hreplaced
        obtain ⟨second, mid', last, hcall', hrun', rfl⟩ := run_cons_eq_ok.1 hrun
        rw [call, if_pos hmode] at hcall
        rw [call, if_pos hnext] at hcall'
        have hadd := add_of_replaced hmode hnext hpc hcall hcall'
        apply ih
        refine run_cons_eq_ok.2 ⟨first ++ second, mid', last, ?_, hrun', ?_⟩
        · rw [call, if_pos hnext]
          exact hadd
        · exact (List.append_assoc first second last).symm
    · exact run_cons_eq_ok.2 ⟨first, mid, more, hcall, ih hrun, rfl⟩

end Encoder

/-! ## Whole streams -/

/-- Data that the modes of a list have no room for is never looked at: the list without it is
encoded to the same stream, or refused for the same fault. -/
theorem encode_map_readBack (records : List Record) :
    encode (records.map (Record.readBack 0)) = encode records := by
  cases h : encode records with
  | error fault =>
    rw [encode_eq_error, Encoder.run_readBack]
    exact encode_eq_error.1 h
  | ok stream =>
    rw [encode_eq_ok, Encoder.run_readBack]
    exact encode_eq_ok.1 h

/-- **What was read from the stream of a list is encoded again, and to the same stream.** -/
theorem encode_walkStream {records : List Record} {stream : ByteArray}
    (h : encode records = .ok stream) :
    (walkStream stream 0 .all none).stopped = none ∧
      encode (walkStream stream 0 .all none).records.toList = .ok stream := by
  obtain ⟨bytes, e', hrun, hstream⟩ := encode_eq_ok.1 h
  rw [walkStream_zero_of_bytes hrun hstream]
  refine ⟨rfl, ?_⟩
  rw [encode_map_readBack]
  exact encode_eq_ok.2 ⟨bytes, e', Encoder.run_kept hrun, hstream⟩

/-- Of two positions at one place the second one is read, data of a pool is cut down and data of a
cell is lost. The three records that are left are encoded to the stream they were read from. -/
theorem encode_walkStream_replaced :
    encode [⟨2, .position, 2147483647⟩, ⟨2, .position, -2147483648⟩, ⟨70000, .cell, 9⟩,
        ⟨70000, .constPool, 4294967295⟩] =
        .ok ⟨#[255, 255, 255, 255, 0, 75, 46, 23, 17, 138, 87, 128, 0, 0, 0, 2, 35]⟩ ∧
      encode [⟨2, .position, -2147483648⟩, ⟨70000, .cell, 0⟩, ⟨70000, .constPool, -1⟩] =
        .ok ⟨#[255, 255, 255, 255, 0, 75, 46, 23, 17, 138, 87, 128, 0, 0, 0, 2, 35]⟩ := by
  have hencode : encode [⟨2, .position, 2147483647⟩, ⟨2, .position, -2147483648⟩, ⟨70000, .cell, 9⟩,
      ⟨70000, .constPool, 4294967295⟩] =
      .ok ⟨#[255, 255, 255, 255, 0, 75, 46, 23, 17, 138, 87, 128, 0, 0, 0, 2, 35]⟩ := by
    decide +kernel
  have hread : (walkStream ⟨#[255, 255, 255, 255, 0, 75, 46, 23, 17, 138, 87, 128, 0, 0, 0, 2, 35]⟩
      0 .all none).records.toList =
      [⟨2, .position, -2147483648⟩, ⟨70000, .cell, 0⟩, ⟨70000, .constPool, -1⟩] := by
    decide +kernel
  obtain ⟨-, hagain⟩ := encode_walkStream hencode
  rw [hread] at hagain
  exact ⟨hencode, hagain⟩

end CodeReloc
