import CodeReloc.Proofs.Assembler.Attempts
import CodeReloc.Proofs.Stream.Contract

set_option autoImplicit false

/-!
# The gap is large enough

A write has two parts: the position that is held back is brought out, and the record is appended.
The first part takes at most 11 bytes and the second one at most `maxRecordSize`, whatever the
distances of the two records are, because every encoder that calls lead to is sound
(`Writer.Reached`). So a writer goes down by at most 26 bytes in a write, by at most 11 in a finish,
and changes no other byte of its buffer (`Lowers`).

The gap of 32 bytes is kept before each record and before the end. A record that is asked for is
therefore written behind the instructions or refused for what it is, never for want of room, and to
complete an assembler can fault only where its last positions are written.

Main statement: `writes_fit_gap`.
-/

namespace CodeReloc

/-! ## Going down in a buffer -/

/-- A writer has gone down by at most `most` bytes and has changed no byte outside of these. -/
structure Lowers (most : Nat) (w : Writer) (buffer : ByteArray) (w' : Writer)
    (buffer' : ByteArray) : Prop where
  pos_le : w'.pos ≤ w.pos
  le_most : w.pos ≤ w'.pos + most
  size_eq : buffer'.size = buffer.size
  below_eq : (bytesOf buffer').take w'.pos = (bytesOf buffer).take w'.pos
  above_eq : (bytesOf buffer').drop w.pos = (bytesOf buffer).drop w.pos

namespace Lowers

variable {most more : Nat} {w mid w' : Writer} {buffer between buffer' : ByteArray}

/-- Bytes that have been put into place lower a writer by their number. -/
theorem of_placed {bytes : List UInt8} (h : Placed bytes w.pos buffer w'.pos buffer')
    (hlength : bytes.length ≤ most) : Lowers most w buffer w' buffer' := by
  have hlow := h.low_add
  exact ⟨by omega, by omega, h.size_eq, h.take_eq (Nat.le_refl _), h.above_eq⟩

theorem refl (most : Nat) (w : Writer) (buffer : ByteArray) : Lowers most w buffer w buffer :=
  .of_placed (.nil w.pos buffer) (Nat.zero_le most)

theorem trans (h : Lowers most w buffer mid between) (h' : Lowers more mid between w' buffer') :
    Lowers (most + more) w buffer w' buffer' := by
  have hmid := h.pos_le
  have hpos := h'.pos_le
  have hfirst := h.le_most
  have hlast := h'.le_most
  refine ⟨by omega, by omega, h'.size_eq.trans h.size_eq, ?_, ?_⟩
  · -- below the second part lies a piece of what is below the first one
    have hmin : min w'.pos mid.pos = w'.pos := Nat.min_eq_left hpos
    calc (bytesOf buffer').take w'.pos
        = ((bytesOf between).take mid.pos).take w'.pos := by
          rw [h'.below_eq, List.take_take, hmin]
      _ = (bytesOf buffer).take w'.pos := by rw [h.below_eq, List.take_take, hmin]
  · have hsplit : mid.pos + (w.pos - mid.pos) = w.pos := by omega
    calc (bytesOf buffer').drop w.pos
        = ((bytesOf buffer').drop mid.pos).drop (w.pos - mid.pos) := by
          rw [List.drop_drop, hsplit]
      _ = (bytesOf between).drop w.pos := by rw [h'.above_eq, List.drop_drop, hsplit]
      _ = (bytesOf buffer).drop w.pos := h.above_eq

/-- What lies below all that has been written is as before. -/
theorem take_eq (h : Lowers most w buffer w' buffer') {n : Nat} (hn : n ≤ w'.pos) :
    (bytesOf buffer').take n = (bytesOf buffer).take n := by
  have hmin : min n w'.pos = n := Nat.min_eq_left hn
  calc (bytesOf buffer').take n
      = ((bytesOf buffer').take w'.pos).take n := by rw [List.take_take, hmin]
    _ = (bytesOf buffer).take n := by rw [h.below_eq, List.take_take, hmin]

end Lowers

/-! ## The two parts of a write -/

namespace Writer

/-- The states of a writer: what calls lead to, each in any buffer, wherever the writer is moved in
between. -/
inductive Reached : Writer → Prop where
  | new (stop : Nat) : Reached (.new stop)
  | call {w w' : Writer} {buffer buffer' : ByteArray} {c : Call} (hw : Reached w)
      (h : w.call buffer c = .ok (w', buffer')) : Reached w'
  | moved {w : Writer} (pos : Nat) (lastPc : UInt64) (hw : Reached w) :
      Reached (w.moveTo pos lastPc)

/-- Brings out the position that is held back, unless a position is to be written. -/
def bringOut (w : Writer) (buffer : ByteArray) (r : Record) : Except Fault (Writer × ByteArray) :=
  if r.mode = .position then .ok (w, buffer) else w.finish buffer

variable {w w' : Writer} {buffer buffer' : ByteArray}

theorem write_eq (w : Writer) (buffer : ByteArray) (r : Record) :
    w.write buffer r = w.bringOut buffer r >>= fun (w, buffer) => w.append buffer r := by
  by_cases hmode : r.mode = .position
  · rw [write_position hmode, bringOut, if_pos hmode]
    rfl
  · rw [write_other hmode, bringOut, if_neg hmode]

/-- Wherever a writer is moved, what it holds back stays within its bounds. -/
theorem Reached.sound (hw : w.Reached) : w.encoder.Sound := by
  induction hw with
  | new stop => exact .start
  | call hw h ih =>
    obtain ⟨bytes, hcall, -⟩ := call_inv h
    exact ih.call hcall
  | moved pos lastPc hw ih => exact ⟨ih.distance_lt, ih.lastMode_eq⟩

/-- A finish takes at most the bytes of one position. -/
theorem lowers_of_finish (hw : w.encoder.Sound) (h : w.finish buffer = .ok (w', buffer')) :
    Lowers 11 w buffer w' buffer' ∧ w'.encoder.Sound := by
  obtain ⟨hplaced, hencoder⟩ := finish_inv h
  refine ⟨.of_placed hplaced (length_heldBytes_le hw), ?_⟩
  rw [hencoder]
  exact .release w.encoder

theorem lowers_of_bringOut {r : Record} (hw : w.encoder.Sound)
    (h : w.bringOut buffer r = .ok (w', buffer')) :
    Lowers 11 w buffer w' buffer' ∧ w'.encoder.Sound := by
  by_cases hmode : r.mode = .position
  · cases (if_pos hmode).symm.trans h
    exact ⟨.refl 11 w buffer, hw⟩
  · exact lowers_of_finish hw ((if_neg hmode).symm.trans h)

theorem lowers_of_append {r : Record} (hw : w.encoder.Sound)
    (h : w.append buffer r = .ok (w', buffer')) : Lowers maxRecordSize w buffer w' buffer' := by
  obtain ⟨bytes, hadd, hplaced⟩ := append_inv h
  exact .of_placed hplaced (length_add_le hw hadd)

/-- **What a write comes to**: at most 11 bytes of a position that was held back, and at most
`maxRecordSize` bytes of the record below them. -/
theorem lowers_of_write {r : Record} (hw : w.encoder.Sound)
    (h : w.write buffer r = .ok (w', buffer')) :
    Lowers 26 w buffer w' buffer' ∧
      ∃ mid between, w.bringOut buffer r = .ok (mid, between) ∧
        mid.append between r = .ok (w', buffer') ∧
        Lowers 11 w buffer mid between ∧ Lowers maxRecordSize mid between w' buffer' := by
  rw [write_eq] at h
  obtain ⟨⟨mid, between⟩, hbring, happend⟩ := bind_eq_ok.1 h
  obtain ⟨hfirst, hmid⟩ := lowers_of_bringOut hw hbring
  have hlast := lowers_of_append hmid happend
  exact ⟨hfirst.trans hlast, mid, between, hbring, happend, hfirst, hlast⟩

/-- With the gap below it, a writer never lacks room: what it does not write breaks the
contract. -/
theorem write_in_gap (hw : w.encoder.Sound) (hlow : gap ≤ w.pos) (hpos : w.pos ≤ buffer.size)
    (r : Record) :
    (∃ w' buffer', w.write buffer r = .ok (w', buffer')) ∨
      ∃ fault, w.write buffer r = .error fault ∧ r.Breaks w.encoder.lastPc fault := by
  have hgap : gap = 32 := rfl
  cases hcall : w.encoder.call (.write r) with
  | ok answer =>
    have hlength := Assembler.length_call_le_gap hw hcall
    exact Or.inl (call_of_room (c := .write r) hw hcall (by omega) hpos)
  | error fault =>
    have hheld := length_heldBytes_le hw
    obtain ⟨_, hr, hbreaks⟩ := Encoder.breaks_of_call hcall
    cases hr
    exact Or.inr ⟨fault, call_of_error (c := .write r) hcall (by omega) hpos, hbreaks⟩

/-- Where there is room, a call goes down by as many bytes as its encoder gives. -/
theorem call_of_length {c : Call} {n : Nat} (hw : w.encoder.Sound)
    (h : (w.encoder.call c).map (fun answer => answer.1.length) = .ok n) (hlow : n ≤ w.pos)
    (hpos : w.pos ≤ buffer.size) :
    ∃ w' buffer', w.call buffer c = .ok (w', buffer') ∧ w'.pos + n = w.pos := by
  cases hcall : w.encoder.call c with
  | error fault =>
    rw [hcall] at h
    cases h
  | ok answer =>
    rw [hcall] at h
    cases h
    obtain ⟨w', buffer', hanswer⟩ := call_of_room hw hcall hlow hpos
    obtain ⟨placed, hplaced, hbuffer⟩ := call_inv hanswer
    cases hcall.symm.trans hplaced
    exact ⟨w', buffer', hanswer, hbuffer.low_add⟩

/-- A call that an encoder answers leads on from every place that a writer with it may have. -/
theorem Reached.of_call {e e' : Encoder} {c : Call} {bytes : List UInt8}
    (he : ∀ pos, Reached ⟨pos, e⟩) (h : e.call c = .ok (bytes, e')) (pos : Nat) :
    Reached ⟨pos, e'⟩ := by
  -- a buffer that has exactly the room for the bytes, out of which the writer is moved again
  have hstart := he bytes.length
  have hsize : bytes.length ≤ (copies bytes.length 0).size := Nat.le_of_eq (size_copies _ 0).symm
  obtain ⟨w', buffer', hanswer⟩ := call_of_room hstart.sound h (Nat.le_refl _) hsize
  obtain ⟨placed, hplaced, -⟩ := call_inv hanswer
  cases h.symm.trans hplaced
  exact (Reached.call hstart hanswer).moved pos w'.encoder.lastPc

end Writer

/-! ## Writers of assemblers -/

/-- Effects leave a writer in a state that calls lead to. -/
theorem Contents.reached_after {c c' : Contents} {x : Effect}
    (hc : ∀ pos, Writer.Reached ⟨pos, c.encoder⟩) (h : c.after x = .ok c') (pos : Nat) :
    Writer.Reached ⟨pos, c'.encoder⟩ := by
  cases x with
  | record mode data =>
    obtain ⟨⟨bytes, encoder⟩, hcall, hend⟩ := bind_eq_ok.1 h
    cases hend
    exact .of_call hc hcall pos
  | keepGap | emit | addComment | setPositions | overwrite =>
    cases h
    exact hc pos

namespace Assembler

variable {a mid a' : Assembler}

/-- **Whatever is tried on an assembler**, calls lead to the state of its writer. -/
theorem reached_of_attemptAll {options : AssemblerOptions} {operations : List Operation}
    {attempts : List Attempt}
    (h : Operation.attemptAll operations (.new options) = .ok (attempts, a)) :
    a.Intact ∧ a.writer.Reached := by
  have hreached : a.Intact ∧ ∀ pos, Writer.Reached ⟨pos, a.contents.encoder⟩ := by
    refine Operation.attemptAll_induction
      (P := fun _ mid => mid.Intact ∧ ∀ pos, Writer.Reached ⟨pos, mid.contents.encoder⟩) [] ?_
      ⟨(Reflects.new options).intact, fun pos => .new pos⟩ h
    rintro _ mid operation answer next - ⟨hmid, hwriter⟩ hrun
    obtain ⟨-, houtcome⟩ := Operation.run_outcome hmid hrun
    obtain ⟨done, -, hcarries⟩ := houtcome.carries
    refine ⟨hcarries.intact, ?_⟩
    refine Contents.afterAll_induction
      (P := fun c => ∀ pos, Writer.Reached ⟨pos, c.encoder⟩) ?_ hwriter hcarries.after_eq
    intro x _ c c' hc hafter
    exact Contents.reached_after hc hafter
  exact ⟨hreached.1, hreached.2 a.writer.pos⟩

/-! ## Writing in the gap -/

/-- After the gap has been kept, the writer has gone down in it by at most `most` bytes. The rest of
the gap still lies between stream and instructions, and the instructions are as before. -/
structure WithinGap (most : Nat) (a a' : Assembler) : Prop where
  fits : a'.Fits
  kept : ∃ mid, Gives keepGap a () mid ∧ mid.HasRoom gap ∧
    Lowers most mid.writer mid.buffer a'.writer a'.buffer
  rest : a'.pc + gap ≤ a'.writer.pos + most
  pc_eq : a'.pc = a.pc
  instructions_eq : a'.instructions = a.instructions

/-- What is held once the gap has been kept. -/
theorem Intact.keepGap_inv (ha : a.Intact) (h : Gives keepGap a () mid) :
    mid.Intact ∧ mid.contents = a.contents ∧ mid.pc = a.pc ∧ mid.HasRoom gap := by
  obtain ⟨hmid, -, hcontents, hroom, -⟩ := ha.makeRoom_inv h
  have hfree := hroom rfl
  rw [Nat.zero_add] at hfree
  refine ⟨hmid, hcontents, ?_, hfree⟩
  rw [← hmid.length_code, hcontents, ha.length_code]

/-- A writer that goes down by less than the gap stays in it. -/
theorem WithinGap.of_lowers {most : Nat} {w : Writer} {buffer : ByteArray} (ha : a.Intact)
    (hkeep : Gives keepGap a () mid) (hmost : most ≤ gap)
    (h : Lowers most mid.writer mid.buffer w buffer) :
    WithinGap most a { mid with buffer := buffer, writer := w } := by
  obtain ⟨hmid, hcontents, hpc, hfree⟩ := ha.keepGap_inv hkeep
  have hroom : mid.pc + gap ≤ mid.writer.pos := hfree
  have hlow := h.le_most
  have hinside : mid.pc ≤ w.pos := by omega
  refine ⟨⟨hinside, ?_⟩, ⟨mid, hkeep, hfree, h⟩, Nat.le_trans hroom hlow, hpc, ?_⟩
  · change w.pos ≤ buffer.size
    rw [h.size_eq]
    exact Nat.le_trans h.pos_le hmid.pos_le
  · apply bytesOf_injective
    rw [instructions, instructions, bytesOf_extract, bytesOf_extract]
    calc (bytesOf buffer).take mid.pc
        = mid.contents.code := h.take_eq hinside
      _ = a.contents.code := by rw [hcontents]

/-- **A record is refused for what it is or written in the gap.** -/
theorem Intact.record_withinGap (ha : a.Intact) {mode : Mode} (hmode : mode.isNone = false)
    (data : Int64) :
    (∃ fault, record mode data a = .error fault ∧
        Record.Breaks a.writer.encoder.lastPc ⟨UInt64.ofNat a.pc, mode, data⟩ fault) ∨
      Settles (record mode data) a fun _ a' => WithinGap 26 a a' := by
  have hrecord : record mode data = (do keepGap; appendRecord mode data) := by
    rw [record, hmode]
    rfl
  rw [hrecord]
  obtain ⟨answer, mid, hkeep, -⟩ := makeRoom_reaches ha.toFits 0
  cases answer with
  | error e => exact Or.inr (.bind_limit hkeep)
  | ok u =>
    obtain ⟨hmid, hcontents, hpc, hfree⟩ := ha.keepGap_inv hkeep
    have hroom : mid.pc + gap ≤ mid.writer.pos := hfree
    have hencoder : mid.writer.encoder = a.writer.encoder := congrArg Contents.encoder hcontents
    rw [← hencoder, ← hpc]
    rcases Writer.write_in_gap hmid.sound (by omega) hmid.pos_le
      ⟨UInt64.ofNat mid.pc, mode, data⟩ with ⟨w, buffer, hwrite⟩ | ⟨fault, hwrite, hbreaks⟩
    · obtain ⟨hlowers, -⟩ := Writer.lowers_of_write hmid.sound hwrite
      refine Or.inr (.of_gives (gives_bind.2 ⟨u, mid, hkeep, bind_eq_ok.2 ⟨_, hwrite, rfl⟩⟩) ?_)
      exact .of_lowers ha hkeep (by decide) hlowers
    · refine Or.inl ⟨fault, ?_, hbreaks⟩
      rw [Computation.bind_apply]
      exact bind_eq_error.2 (Or.inr ⟨_, hkeep, bind_eq_error.2 (Or.inl hwrite)⟩)

/-- **What is held back is finished in the gap**, and then the buffer can be cut up. -/
theorem Intact.cut_withinGap (ha : a.Intact) :
    Settles (do keepGap; cut) a fun _ a' => WithinGap 11 a a' := by
  obtain ⟨answer, mid, hkeep, -⟩ := makeRoom_reaches ha.toFits 0
  cases answer with
  | error e => exact .bind_limit hkeep
  | ok u =>
    obtain ⟨hmid, -, -, hfree⟩ := ha.keepGap_inv hkeep
    have hroom : mid.pc + gap ≤ mid.writer.pos := hfree
    have hgap : gap = 32 := rfl
    have hheld := length_heldBytes_le hmid.sound
    obtain ⟨w, buffer, hfinish⟩ :=
      Writer.finish_of_room (w := mid.writer) (by omega) hmid.pos_le
    obtain ⟨hlowers, -⟩ := Writer.lowers_of_finish hmid.sound hfinish
    have hwithin : WithinGap 11 a { mid with buffer := buffer, writer := w } :=
      .of_lowers ha hkeep (by decide) hlowers
    exact .bind_gives hkeep (.of_gives (cut_of_finish hfinish hwithin.fits) hwithin)

/-- **To complete an assembler faults where its last positions are written, or not at all.** What is
finished afterwards stays in the gap. -/
theorem Intact.complete_withinGap (ha : a.Intact) :
    (∃ fault, complete a = .error fault ∧ writePositions a = .error fault) ∨
      Settles complete a fun _ a' =>
        ∃ any mid, Gives writePositions a any mid ∧ WithinGap 11 mid a' := by
  have hcomplete : complete = writePositions >>= fun _ => (do keepGap; cut) := rfl
  rw [hcomplete]
  cases hwrite : writePositions a with
  | error fault =>
    refine Or.inl ⟨fault, ?_, rfl⟩
    rw [Computation.bind_apply]
    exact bind_eq_error.2 (Or.inl hwrite)
  | ok ended =>
    obtain ⟨answer, mid⟩ := ended
    refine Or.inr ?_
    cases answer with
    | error e => exact .bind_limit hwrite
    | ok any =>
      have hrun : Gives Operation.writePositions.run a () mid := gives_discard.2 ⟨any, hwrite⟩
      have hmid := Operation.intact_of_run ha hrun
      refine .bind_gives hwrite (hmid.cut_withinGap.mono ?_)
      rintro _ a' hwithin
      exact ⟨any, mid, hwrite, hwithin⟩

end Assembler

/-! ## Headroom -/

open Assembler

/-- **The gap covers the worst write.** From every state that calls lead to, a write goes down by at
most 26 bytes, of which at most 11 bring out the position that was held back and at most
`maxRecordSize` are the record, and a finish by at most 11. Neither changes a byte outside of where
it went. The writer of an assembler is always in such a state, whatever was tried before, so behind
the gap no record and no end lacks room: a record breaks the contract or stays in the gap, and to
complete the assembler faults where its last positions are written or stays in the gap. -/
theorem writes_fit_gap {w : Writer} {options : AssemblerOptions} {operations : List Operation}
    {attempts : List Attempt} {a : Assembler} (hw : w.Reached)
    (ha : Operation.attemptAll operations (.new options) = .ok (attempts, a)) :
    (∀ buffer r w' buffer', w.write buffer r = .ok (w', buffer') →
      Lowers 26 w buffer w' buffer' ∧
        ∃ mid between, w.bringOut buffer r = .ok (mid, between) ∧
          mid.append between r = .ok (w', buffer') ∧
          Lowers 11 w buffer mid between ∧ Lowers maxRecordSize mid between w' buffer') ∧
      (∀ buffer w' buffer', w.finish buffer = .ok (w', buffer') →
        Lowers 11 w buffer w' buffer') ∧
      a.writer.Reached ∧
      (∀ mode data, mode.isNone = false →
        (∃ fault, record mode data a = .error fault ∧
            Record.Breaks a.writer.encoder.lastPc ⟨UInt64.ofNat a.pc, mode, data⟩ fault) ∨
          Settles (record mode data) a fun _ a' => WithinGap 26 a a') ∧
      ((∃ fault, complete a = .error fault ∧ writePositions a = .error fault) ∨
        Settles complete a fun _ a' =>
          ∃ any mid, Gives writePositions a any mid ∧ WithinGap 11 mid a') := by
  obtain ⟨hintact, hwriter⟩ := reached_of_attemptAll ha
  refine ⟨?_, ?_, hwriter, ?_, hintact.complete_withinGap⟩
  · intro buffer r w' buffer' h
    exact Writer.lowers_of_write hw.sound h
  · intro buffer w' buffer' h
    exact (Writer.lowers_of_finish hw.sound h).1
  · intro mode data hmode
    exact hintact.record_withinGap hmode data

/-- A position as far away as it can be is held back, and a comment as far behind it takes all 26
bytes. A buffer whose instructions leave the gap and nothing more has room for a comment. -/
theorem writes_fit_gap_widest :
    ∃ w w' finished buffer' buffer'' a a',
      (Writer.new 26).write (copies 26 0) ⟨4294967295, .position, 1000⟩ = .ok (w, copies 26 0) ∧
        w.write (copies 26 0) ⟨8589934590, .comment, -1⟩ = .ok (w', buffer') ∧
        w'.pos + 26 = w.pos ∧ Lowers 26 w (copies 26 0) w' buffer' ∧
        w.finish (copies 26 0) = .ok (finished, buffer'') ∧
        finished.pos + 11 = w.pos ∧ Lowers 11 w (copies 26 0) finished buffer'' ∧
        Gives (Operation.emit (copies 4064 0)).run (.new ⟨4096, 4096, false, false, false⟩) () a ∧
        a.pc + gap = a.writer.pos ∧ Gives (record .comment 7) a () a' ∧ WithinGap 26 a a' := by
  have hheld : (Writer.new 26).call (copies 26 0) (.write ⟨4294967295, .position, 1000⟩) =
      .ok (⟨26, ⟨4294967295, 0, 1000, some .position, some ⟨4294967295, 1000⟩⟩⟩, copies 26 0) := by
    decide +kernel
  obtain ⟨a, hemit, hintact, hpc, hsize, hcontents⟩ :=
    emit_new_of_room ⟨4096, 4096, false, false, false⟩ (size_copies 4064 0)
      (show max 4096 minimalSize = 4096 from rfl) (by decide)
  have hops : Operation.attemptAll [.emit (copies 4064 0)]
      (.new ⟨4096, 4096, false, false, false⟩) =
        .ok ([⟨0, .emit (copies 4064 0), .ok ()⟩], a) :=
    Operation.attemptAll_cons_eq_ok.2 ⟨_, a, [], hemit, rfl, rfl⟩
  have hreached := Writer.Reached.call (.new 26) hheld
  obtain ⟨hwrites, hfinishes, -, hrecords, -⟩ := writes_fit_gap hreached hops
  -- the writer: both bounds are met exactly
  have hposition : (deltaForm 4294967295 .position .position 1000).length = 11 := by
    rw [deltaForm, if_neg (by decide)]
    cbv
  have hcomment : (longForm 4294967295 .comment ++ pointerBytes (-1)).length = 15 := by cbv
  have hboth : (Encoder.call ⟨4294967295, 0, 1000, some .position, some ⟨4294967295, 1000⟩⟩
      (.write ⟨8589934590, .comment, -1⟩)).map (fun answer => answer.1.length) = .ok 26 := by
    change Except.ok (deltaForm 4294967295 .position .position 1000 ++
      (longForm 4294967295 .comment ++ pointerBytes (-1))).length = _
    rw [List.length_append, hposition, hcomment]
  have hinside : 26 ≤ (copies 26 0).size := Nat.le_of_eq (size_copies 26 0).symm
  obtain ⟨w', buffer', hwrite, hlow⟩ :=
    Writer.call_of_length hreached.sound hboth (Nat.le_refl 26) hinside
  obtain ⟨finished, buffer'', hfinish, hend⟩ := Writer.call_of_length (c := .finish)
    hreached.sound (congrArg Except.ok hposition) (by decide) hinside
  -- the assembler: the stream is empty, so what is not instructions is the gap
  have hencoder : a.writer.encoder = .start := congrArg Contents.encoder hcontents
  have hpos : a.writer.pos = 4096 := by
    have hstream := length_stream a
    have hle := hintact.pos_le
    rw [hcontents, hsize, List.length_nil] at hstream
    omega
  have hgap : a.pc + gap = a.writer.pos := by rw [hpc, hpos, gap]
  have hcall : ∃ bytes next,
      a.writer.encoder.call (.write ⟨UInt64.ofNat a.pc, .comment, 7⟩) = .ok (bytes, next) := by
    rw [hencoder, hpc]
    exact ⟨_, _, rfl⟩
  obtain ⟨bytes, next, hcall⟩ := hcall
  obtain ⟨last, buffer, -, hgives⟩ :=
    record_of_room hintact.toFits (Nat.le_of_eq hgap) hintact.sound rfl hcall
  rcases hrecords .comment 7 rfl with ⟨fault, hfault, -⟩ | hsettles
  · cases hfault.symm.trans hgives
  · obtain ⟨hlowers, -⟩ := hwrites _ ⟨8589934590, .comment, -1⟩ w' buffer' hwrite
    exact ⟨_, w', finished, buffer', buffer'', a, _, hheld, hwrite, hlow, hlowers, hfinish, hend,
      hfinishes _ finished buffer'' hfinish, hemit, hgap, hgives, hsettles.of_answer hgives⟩

end CodeReloc
