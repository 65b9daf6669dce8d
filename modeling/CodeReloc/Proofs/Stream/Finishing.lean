import CodeReloc.Proofs.Stream.RoundTrip

set_option autoImplicit false

/-!
# Finishing a stream

A stream is complete once the position that is held back has been brought out. How large it will be
then can be asked before: a second writer in the same state finishes in a small buffer of its own,
and what it takes there is what the writer will take. That is so because the bytes of a form do not
depend on the place where they are put, and because a position that is held back never has more than
eleven of them, whatever calls have led to it.

Main statement: `finalSize_of_run`.
-/

namespace CodeReloc

namespace Writer

variable {w w' : Writer} {buffer finished : ByteArray} {stop : Nat}

theorem size_of_le (h : w.pos ≤ stop) : w.size stop = .ok (stop - w.pos) :=
  require_bind_eq_ok.2 ⟨decide_eq_true h, rfl⟩

/-- The final size is the size so far and that of the bytes held back, which always fit into the
buffer that they are tried in. -/
theorem finalSize_eq (hw : w.encoder.Sound) (hpos : w.pos ≤ stop)
    (htotal : stop - w.pos + w.encoder.heldBytes.length < 2 ^ 64) :
    w.finalSize stop = .ok (stop - w.pos + w.encoder.heldBytes.length) := by
  have hheld := length_heldBytes_le hw
  have hmax : maxRecordSize = 15 := rfl
  have hroom : w.encoder.heldBytes.length ≤ maxRecordSize := by omega
  obtain ⟨probe, tried, hprobe⟩ := finish_of_room (w := { w with pos := maxRecordSize }) hroom
    (Nat.le_of_eq (size_copies _ 0).symm)
  have hlow : probe.pos + w.encoder.heldBytes.length = maxRecordSize :=
    (finish_inv hprobe).1.low_add
  have hused : maxRecordSize - probe.pos = w.encoder.heldBytes.length := by omega
  rw [finalSize, hprobe, size_of_le hpos]
  change (require (decide (stop - w.pos + (maxRecordSize - probe.pos) < 2 ^ 64)) .breach >>= _) = _
  rw [hused]
  exact require_bind_eq_ok.2 ⟨decide_eq_true htotal, rfl⟩

/-- A finish lays its bytes below the writer and changes nothing else. -/
theorem finish_frame (h : w.finish buffer = .ok (w', finished)) :
    w'.pos + w.encoder.heldBytes.length = w.pos ∧
      (bytesOf finished).take w'.pos = (bytesOf buffer).take w'.pos ∧
      (bytesOf finished).drop w.pos = (bytesOf buffer).drop w.pos := by
  obtain ⟨hplaced, -⟩ := finish_inv h
  exact ⟨hplaced.low_add, hplaced.take_eq (Nat.le_refl _), hplaced.above_eq⟩

/-- The finished stream is the unfinished one with the bytes that were held back below it. -/
theorem extract_finish (h : w.finish buffer = .ok (w', finished)) (hpos : w.pos ≤ stop) :
    bytesOf (finished.extract w'.pos stop) =
      w.encoder.heldBytes.reverse ++ bytesOf (buffer.extract w.pos stop) := by
  obtain ⟨hplaced, -⟩ := finish_inv h
  have hlow := hplaced.low_add
  have hlength : stop - w'.pos = w.encoder.heldBytes.reverse.length + (stop - w.pos) := by
    rw [List.length_reverse]
    omega
  rw [bytesOf_extract, List.drop_take, hplaced.drop_eq, hlength, List.take_length_add_append,
    bytesOf_extract, List.drop_take]

/-- Where nothing is held back there is nothing to finish. -/
theorem finish_finished (h : w.finish buffer = .ok (w', finished)) :
    w'.finish finished = .ok (w', finished) := by
  obtain ⟨-, hencoder⟩ := finish_inv h
  obtain ⟨pos, encoder⟩ := w'
  cases hencoder
  rfl

end Writer

/-- The bytes of calls read back whether they are finished or not. Those of a finish add the
position that is held back. -/
theorem walkStream_of_unfinished {start : UInt64} {calls : List Call} {bytes : List UInt8}
    {e : Encoder} (h : Encoder.start.run calls = .ok (bytes, e))
    (hstart : ∀ r ∈ (written calls).getLast?, start.toNat + r.pc.toNat < 2 ^ 64) :
    ∃ found : List Record,
      (∀ stream, bytesOf stream = bytes.reverse →
        walkStream stream start .all none = ⟨found.toArray, none⟩) ∧
      ∀ stream, bytesOf stream = (bytes ++ e.heldBytes).reverse →
        walkStream stream start .all none =
          ⟨(found ++ e.pending.map (Record.readBack start)).toArray, none⟩ := by
  have hlast := lastPc_in_range h hstart
  have hbegin : Follows start .start ⟨start, 0, 0⟩ := ⟨.start, rfl, rfl, rfl⟩
  obtain ⟨found, t, hdecodes, ht, -⟩ := hbegin.run h hlast
  refine ⟨found.map (Record.readBack start), ?_, ?_⟩
  · intro stream hstream
    exact hdecodes.walkStream_eq hstream
  · -- a reader that has come this far goes on with what was held back
    intro stream hstream
    exact (hdecodes.trans (ht.decodes_heldBytes hlast)).walkStream_eq hstream

/-- The position that is held back is at most one record. -/
theorem Encoder.pending_le_one (e : Encoder) (start : UInt64) :
    ∃ last : Option Record, e.pending.map (Record.readBack start) = last.toList ∧
      ∀ r ∈ last, r.mode = .position := by
  unfold Encoder.pending
  cases e.held with
  | none => exact ⟨none, rfl, by simp⟩
  | some held =>
    refine ⟨some _, rfl, ?_⟩
    intro r hr
    cases hr
    rfl

/-- **The size that is asked for is the size after a finish.** Whatever calls a writer has answered,
its final size can be asked for, and a finish in any buffer that has room below the writer leaves a
stream of exactly that size. It changes no byte but those that it lays down, and doing it once more
changes nothing at all. If the buffer holds what was written, the finished stream reads as the
unfinished one with at most one more record, a position. -/
theorem finalSize_of_run {stop : Nat} {buffer buffer' : ByteArray} {calls : List Call}
    {w : Writer} (hstop : stop < 2 ^ 64)
    (h : (Writer.new stop).run buffer calls = .ok (w, buffer')) (arena : ByteArray)
    (harena : stop ≤ arena.size) (hroom : w.encoder.heldBytes.length ≤ w.pos) :
    ∃ total w' finished,
      w.finalSize stop = .ok total ∧ w.finish arena = .ok (w', finished) ∧
        w'.size stop = .ok total ∧
        (bytesOf finished).take w'.pos = (bytesOf arena).take w'.pos ∧
        (bytesOf finished).drop w.pos = (bytesOf arena).drop w.pos ∧
        w'.finish finished = .ok (w', finished) ∧
        ∀ start : UInt64, arena.extract w.pos stop = buffer'.extract w.pos stop →
          (∀ r ∈ (written calls).getLast?, start.toNat + r.pc.toNat < 2 ^ 64) →
          ∃ (found : List Record) (last : Option Record),
            walkStream (arena.extract w.pos stop) start .all none = ⟨found.toArray, none⟩ ∧
              walkStream (finished.extract w'.pos stop) start .all none =
                ⟨(found ++ last.toList).toArray, none⟩ ∧
              ∀ r ∈ last, r.mode = .position := by
  obtain ⟨bytes, hbytes, hplaced⟩ := Writer.run_inv h
  have hsound : w.encoder.Sound := Encoder.Sound.start.run hbytes
  have hlow : w.pos + bytes.length = stop := hplaced.low_add
  have hinside : w.pos ≤ arena.size := by omega
  obtain ⟨w', finished, hfinish⟩ := Writer.finish_of_room hroom hinside
  obtain ⟨hpos, hbelow, habove⟩ := Writer.finish_frame hfinish
  have htotal : stop - w'.pos = stop - w.pos + w.encoder.heldBytes.length := by omega
  refine ⟨stop - w'.pos, w', finished, ?_, hfinish, Writer.size_of_le (by omega), hbelow, habove,
    Writer.finish_finished hfinish, ?_⟩
  · rw [htotal]
    exact Writer.finalSize_eq hsound (by omega) (by omega)
  · intro start hholds hstart
    obtain ⟨found, hbefore, hafter⟩ := walkStream_of_unfinished hbytes hstart
    obtain ⟨last, hlast, hmode⟩ := w.encoder.pending_le_one start
    rw [hlast] at hafter
    have hunfinished : bytesOf (arena.extract w.pos stop) = bytes.reverse := by
      rw [hholds]
      exact hplaced.extract_eq
    refine ⟨found, last, hbefore _ hunfinished, hafter _ ?_, hmode⟩
    rw [Writer.extract_finish hfinish (by omega), hunfinished, List.reverse_append]

/-- A code target is in place, and a position that has replaced another one is held back. It needs
its long form, whose six bytes are counted before they are there. -/
theorem finalSize_of_run_held :
    (Writer.new 12).run (copies 12 0)
        [.write ⟨0, .codeTarget, 0⟩, .write ⟨8, .position, 5⟩, .write ⟨8, .position, 1000⟩] =
        .ok (⟨11, ⟨8, 0, 1000, some .position, some ⟨8, 1000⟩⟩⟩,
          ⟨#[0, 0, 0, 0, 0, 0, 0, 0, 0, 0, 0, 1]⟩) ∧
      Writer.finalSize ⟨11, ⟨8, 0, 1000, some .position, some ⟨8, 1000⟩⟩⟩ 12 = .ok 7 ∧
      ∃ (found : List Record) (last : Option Record),
        walkStream (ByteArray.extract ⟨#[0, 0, 0, 0, 0, 0, 0, 0, 0, 0, 0, 1]⟩ 11 12) 16 .all none =
            ⟨found.toArray, none⟩ ∧
          walkStream (ByteArray.extract ⟨#[0, 0, 0, 0, 0, 0, 0, 3, 232, 8, 35, 1]⟩ 5 12) 16 .all
            none = ⟨(found ++ last.toList).toArray, none⟩ := by
  have hrun : (Writer.new 12).run (copies 12 0)
      [.write ⟨0, .codeTarget, 0⟩, .write ⟨8, .position, 5⟩, .write ⟨8, .position, 1000⟩] =
        .ok (⟨11, ⟨8, 0, 1000, some .position, some ⟨8, 1000⟩⟩⟩,
          ⟨#[0, 0, 0, 0, 0, 0, 0, 0, 0, 0, 0, 1]⟩) := by
    decide +kernel
  have hfinish : Writer.finish ⟨11, ⟨8, 0, 1000, some .position, some ⟨8, 1000⟩⟩⟩
      ⟨#[0, 0, 0, 0, 0, 0, 0, 0, 0, 0, 0, 1]⟩ =
        .ok (⟨5, ⟨8, 0, 1000, some .position, none⟩⟩,
          ⟨#[0, 0, 0, 0, 0, 0, 0, 3, 232, 8, 35, 1]⟩) := by
    decide +kernel
  obtain ⟨total, w', finished, htotal, hanswer, hsize, -, -, -, hread⟩ :=
    finalSize_of_run (by decide) hrun ⟨#[0, 0, 0, 0, 0, 0, 0, 0, 0, 0, 0, 1]⟩ (by decide)
      (by decide)
  cases hfinish.symm.trans hanswer
  cases (Writer.size_of_le (by decide)).symm.trans hsize
  obtain ⟨found, last, hbefore, hafter, -⟩ := hread 16 rfl (by decide)
  exact ⟨hrun, htotal, found, last, hbefore, hafter⟩

end CodeReloc
