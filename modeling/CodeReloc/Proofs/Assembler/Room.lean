import CodeReloc.Assembler.Basic
import CodeReloc.Proofs.Computation
import CodeReloc.Proofs.Stream.Calls

set_option autoImplicit false

/-!
# Room between instructions and stream

Instructions and stream grow towards each other in one buffer. As long as neither has passed the
other (`Assembler.Fits`), the buffer can be exchanged for a larger one at any time: what an
assembler holds (`Assembler.contents`) does not depend on where the stream lies
(`contents_resize`). Making room never faults, changes nothing of the contents, and leaves the free
bytes it was asked for unless the limit is in the way (`makeRoom_reaches`).

Behind that, laying down instruction bytes and asking the writer for something are the only two ways
in which a buffer changes, and each leaves the part of the other one alone (`appendBytes_gives`,
`call_contents`).
-/

namespace CodeReloc

/-- The code with bytes laid over it, cut off where it ends. -/
def layOver (code : List UInt8) (offset : Nat) (bytes : List UInt8) : List UInt8 :=
  (code.take offset ++ bytes ++ code.drop (offset + bytes.length)).take code.length

/-- Inside the code, a piece is found where it was laid and the code everywhere else. -/
theorem getElem?_lay (code piece : List UInt8) (offset : Nat) {i : Nat} (hi : i < code.length) :
    (code.take offset ++ piece ++ code.drop (offset + piece.length))[i]? =
      if offset ≤ i ∧ i < offset + piece.length then piece[i - offset]? else code[i]? := by
  rw [List.append_assoc]
  by_cases hfront : i < offset
  · have hlength : i < (code.take offset).length := by
      rw [List.length_take]
      omega
    rw [if_neg (by omega), List.getElem?_append_left hlength, List.getElem?_take_of_lt hfront]
  · have hlength : (code.take offset).length = offset := by
      rw [List.length_take]
      omega
    rw [List.getElem?_append_right (by omega), hlength]
    by_cases hinside : i - offset < piece.length
    · rw [if_pos (by omega), List.getElem?_append_left hinside]
    · have hback : offset + piece.length + (i - offset - piece.length) = i := by omega
      rw [if_neg (by omega), List.getElem?_append_right (by omega), List.getElem?_drop, hback]

/-- A piece that is cut off where the code ends changes the code as the whole piece would. -/
theorem take_lay (buffer piece : List UInt8) (offset : Nat) {n : Nat} (h : n ≤ buffer.length) :
    (buffer.take offset ++ piece.take (n - offset) ++
        buffer.drop (offset + (piece.take (n - offset)).length)).take n =
      layOver (buffer.take n) offset piece := by
  have hlength : (buffer.take n).length = n := by
    rw [List.length_take]
    exact Nat.min_eq_left h
  rw [layOver, hlength]
  -- byte by byte: the part of the piece that is cut off would lie behind the code
  apply List.ext_getElem?
  intro i
  by_cases hi : i < n
  · rw [List.getElem?_take_of_lt hi, List.getElem?_take_of_lt hi,
      getElem?_lay _ _ _ (Nat.lt_of_lt_of_le hi h), getElem?_lay _ _ _ (by omega),
      List.getElem?_take_of_lt hi, List.length_take]
    split
    · rw [if_pos (by omega), List.getElem?_take_of_lt (by omega)]
    · rw [if_neg (by omega)]
  · rw [List.getElem?_take_eq_none (by omega), List.getElem?_take_eq_none (by omega)]

/-- Behind the bytes that are laid over it, the code stays as it is. -/
theorem drop_layOver (code bytes : List UInt8) {offset n : Nat} (h : offset + bytes.length ≤ n) :
    (layOver code offset bytes).drop n = code.drop n := by
  apply List.ext_getElem?
  intro i
  rw [List.getElem?_drop, List.getElem?_drop, layOver]
  by_cases hi : n + i < code.length
  · rw [List.getElem?_take_of_lt hi, getElem?_lay _ _ _ hi, if_neg (by omega)]
  · rw [List.getElem?_take_eq_none (by omega), List.getElem?_eq_none (by omega)]

/-- What an assembler holds, wherever it lies in the buffer. -/
structure Contents where
  options : AssemblerOptions
  code : List UInt8
  /-- The bytes of the stream, in the order in which they were written. -/
  stream : List UInt8
  encoder : Encoder
  comments : Array String
  positions : Positions

namespace Contents

/-- With more instruction bytes. -/
def emit (c : Contents) (bytes : List UInt8) : Contents := { c with code := c.code ++ bytes }

theorem emit_nil (c : Contents) : c.emit [] = c := by
  rw [emit, List.append_nil]

/-- Behind the first bytes, emitting adds what is emitted. -/
theorem drop_emit {c : Contents} {bytes : List UInt8} {n : Nat} (h : n ≤ c.code.length) :
    (c.emit bytes).code.drop n = c.code.drop n ++ bytes :=
  List.drop_append_of_le_length h

/-- With more bytes of the stream. -/
def append (c : Contents) (bytes : List UInt8) (encoder : Encoder) : Contents :=
  { c with stream := c.stream ++ bytes, encoder := encoder }

/-- With bytes laid over the instructions. -/
def overwrite (c : Contents) (offset : Nat) (bytes : List UInt8) : Contents :=
  { c with code := layOver c.code offset bytes }

end Contents

namespace Assembler

/-- What the assembler holds. -/
def contents (a : Assembler) : Contents where
  options := a.options
  code := (bytesOf a.buffer).take a.pc
  stream := ((bytesOf a.buffer).drop a.writer.pos).reverse
  encoder := a.writer.encoder
  comments := a.comments
  positions := a.positions

/-- Instructions and stream lie in the buffer and do not meet. -/
structure Fits (a : Assembler) : Prop where
  pc_le : a.pc ≤ a.writer.pos
  pos_le : a.writer.pos ≤ a.buffer.size

/-- There are `n` free bytes. -/
def HasRoom (a : Assembler) (n : Nat) : Prop := a.pc + n ≤ a.writer.pos

variable {a a' : Assembler}

theorem Fits.length_code (ha : a.Fits) : a.contents.code.length = a.pc := by
  have hpc := ha.pc_le
  have hpos := ha.pos_le
  simp only [contents, List.length_take, length_bytesOf]
  omega

theorem Fits.space_eq (ha : a.Fits) : a.space = .ok (a.writer.pos - a.pc) :=
  require_bind_eq_ok.2 ⟨decide_eq_true ha.pc_le, rfl⟩

theorem Fits.streamSize_eq (ha : a.Fits) : a.streamSize = .ok (a.buffer.size - a.writer.pos) :=
  require_bind_eq_ok.2 ⟨decide_eq_true ha.pos_le, rfl⟩

/-! ## Growing -/

theorem le_grownSize (limit needed size : Nat) : size ≤ (grownSize limit needed size).1 := by
  fun_induction grownSize limit needed size with
  | case1 size hfits => exact Nat.le_refl size
  | case2 size hsmall hgrows ih => exact Nat.le_trans (Nat.le_of_lt hgrows.1) ih
  | case3 size hsmall hstuck => exact Nat.le_refl size

/-- A size that is reached without meeting the limit is large enough. -/
theorem needed_le_grownSize {limit needed size : Nat}
    (h : (grownSize limit needed size).2 = none) : needed ≤ (grownSize limit needed size).1 := by
  fun_induction grownSize limit needed size with
  | case1 size hfits => exact hfits
  | case2 size hsmall hgrows ih => exact ih h
  | case3 size hsmall hstuck => cases h

/-- A larger buffer holds the same. -/
theorem contents_resize (ha : a.Fits) {size : Nat} (hsize : a.buffer.size ≤ size) :
    (a.resize (a.buffer.size - a.writer.pos) size).contents = a.contents := by
  have hpc := ha.pc_le
  have hpos := ha.pos_le
  have hback : a.buffer.size - (a.buffer.size - a.writer.pos) = a.writer.pos := by omega
  have hcode : ((bytesOf a.buffer).take a.pc).length = a.pc := ha.length_code
  simp only [contents, resize, instructions, Writer.moveTo, bytesOf_append, bytesOf_extract,
    bytesOf_copies, List.drop_zero, hback, Contents.mk.injEq, true_and, and_true]
  refine ⟨?_, ?_⟩
  · rw [List.append_assoc]
    exact List.take_left' hcode
  · -- the zeros between the two parts take up exactly what the buffer has grown by
    have hfront : ((bytesOf a.buffer).take a.pc ++
        List.replicate (size - a.pc - (a.buffer.size - a.writer.pos)) 0).length =
          size - (a.buffer.size - a.writer.pos) := by
      rw [List.length_append, hcode, List.length_replicate]
      omega
    rw [List.drop_left' hfront, List.take_of_length_le (by simp)]

theorem pos_resize (streamSize size : Nat) :
    (a.resize streamSize size).writer.pos = size - streamSize := rfl

theorem size_resize (ha : a.Fits) {size : Nat} (hsize : a.buffer.size ≤ size) :
    (a.resize (a.buffer.size - a.writer.pos) size).buffer.size = size := by
  have hpc := ha.pc_le
  have hpos := ha.pos_le
  rw [← length_bytesOf]
  simp only [resize, instructions, bytesOf_append, bytesOf_extract, bytesOf_copies, List.drop_zero,
    List.length_append, List.length_take, List.length_drop, List.length_replicate, length_bytesOf]
  omega

theorem fits_resize (ha : a.Fits) {size : Nat} (hsize : a.buffer.size ≤ size) :
    (a.resize (a.buffer.size - a.writer.pos) size).Fits := by
  have hpc := ha.pc_le
  have hpos := ha.pos_le
  constructor
  · change a.pc ≤ size - (a.buffer.size - a.writer.pos)
    omega
  · rw [size_resize ha hsize, pos_resize]
    exact Nat.sub_le _ _

/-- Growing twice comes to growing once. -/
theorem resize_resize (ha : a.Fits) {mid : Nat} (hmid : a.buffer.size ≤ mid) (size : Nat) :
    (a.resize (a.buffer.size - a.writer.pos) mid).resize (a.buffer.size - a.writer.pos) size =
      a.resize (a.buffer.size - a.writer.pos) size := by
  have hpos := ha.pos_le
  have hstart : a.buffer.size - (a.buffer.size - a.writer.pos) = a.writer.pos := by omega
  have hsame := contents_resize ha hmid
  have hsize := size_resize ha hmid
  generalize a.buffer.size - a.writer.pos = streamSize at hstart hsame hsize ⊢
  -- both are put together from the same instructions and the same stream
  have hcode : (a.resize streamSize mid).instructions = a.instructions := by
    apply bytesOf_injective
    rw [instructions, instructions, bytesOf_extract, bytesOf_extract]
    exact congrArg Contents.code hsame
  have hback : (a.resize streamSize mid).buffer.extract (mid - streamSize) mid =
      a.buffer.extract a.writer.pos a.buffer.size := by
    have hstream : (bytesOf (a.resize streamSize mid).buffer).drop (mid - streamSize) =
        (bytesOf a.buffer).drop a.writer.pos :=
      List.reverse_inj.1 (congrArg Contents.stream hsame)
    apply bytesOf_injective
    rw [bytesOf_extract, bytesOf_extract, List.take_of_length_le, List.take_of_length_le, hstream]
    · exact Nat.le_of_eq (length_bytesOf _)
    · rw [length_bytesOf]
      exact Nat.le_of_eq hsize
  have houter : ∀ b : Assembler, b.resize streamSize size =
      { b with
        buffer := b.instructions ++ copies (size - b.pc - streamSize) 0 ++
          b.buffer.extract (b.buffer.size - streamSize) b.buffer.size
        writer := b.writer.moveTo (size - streamSize) b.writer.encoder.lastPc } := fun _ => rfl
  rw [houter, houter, hcode, hsize, hback, hstart]
  rfl

/-- What making room comes to. -/
theorem makeRoom_eq (ha : a.Fits) (n : Nat) :
    makeRoom n a =
      if a.writer.pos - a.pc < n + gap then
        match grownSize a.options.maxSize (a.pc + (a.buffer.size - a.writer.pos) + n + gap)
          a.buffer.size with
        | (size, exceeded) =>
          .ok (exceeded.elim (.ok ()) .error,
            if size ≠ a.buffer.size then a.resize (a.buffer.size - a.writer.pos) size else a)
      else .ok (.ok (), a) := by
  rw [makeRoom, Computation.bind_apply, Computation.get_apply]
  change (liftM a.space >>= _ : Assembly Unit) a = _
  rw [Computation.bind_apply, Computation.lift_apply, ha.space_eq]
  change (liftM a.streamSize >>= _ : Assembly Unit) a = _
  rw [Computation.bind_apply, Computation.lift_apply, ha.streamSize_eq]
  change (if a.writer.pos - a.pc < n + gap then _ else (_ : Assembly Unit)) a = _
  split
  · generalize grownSize a.options.maxSize (a.pc + (a.buffer.size - a.writer.pos) + n + gap)
      a.buffer.size = grown
    obtain ⟨size, exceeded⟩ := grown
    dsimp only
    split
    · cases exceeded <;> rfl
    · cases exceeded <;> rfl
  · rfl

/-- **Making room does not fault and changes nothing of what is held.** -/
theorem makeRoom_reaches (ha : a.Fits) (n : Nat) :
    Reaches (makeRoom n) a fun answer a' =>
      a'.Fits ∧ a'.contents = a.contents ∧ (answer = .ok () → a'.HasRoom (n + gap)) := by
  have hpc := ha.pc_le
  have hpos := ha.pos_le
  rw [Reaches, makeRoom_eq ha n]
  by_cases hsmall : a.writer.pos - a.pc < n + gap
  · rw [if_pos hsmall]
    generalize hneeded : a.pc + (a.buffer.size - a.writer.pos) + n + gap = needed
    have hle := le_grownSize a.options.maxSize needed a.buffer.size
    have hlarge : (grownSize a.options.maxSize needed a.buffer.size).2 = none →
        needed ≤ (grownSize a.options.maxSize needed a.buffer.size).1 := needed_le_grownSize
    generalize grownSize a.options.maxSize needed a.buffer.size = grown at hle hlarge
    obtain ⟨size, exceeded⟩ := grown
    have hnone : exceeded.elim (.ok ()) .error = (.ok () : Except LimitExceeded Unit) →
        needed ≤ size := by
      intro hanswer
      cases exceeded with
      | none => exact hlarge rfl
      | some e => cases hanswer
    refine ⟨_, _, rfl, ?_⟩
    split
    · refine ⟨fits_resize ha hle, contents_resize ha hle, fun hanswer => ?_⟩
      have hroom := hnone hanswer
      change a.pc + (n + gap) ≤ size - (a.buffer.size - a.writer.pos)
      omega
    · -- a buffer that does not grow was too small, so the limit must have been met
      refine ⟨ha, rfl, fun hanswer => ?_⟩
      have hroom := hnone hanswer
      change a.pc + (n + gap) ≤ a.writer.pos
      omega
  · rw [if_neg hsmall]
    refine ⟨_, _, rfl, ha, rfl, fun _ => ?_⟩
    change a.pc + (n + gap) ≤ a.writer.pos
    omega

/-- Where there is room already, making room does nothing. -/
theorem makeRoom_of_room (ha : a.Fits) {n : Nat} (hroom : a.HasRoom (n + gap)) :
    Gives (makeRoom n) a () a := by
  have hfree : a.pc + (n + gap) ≤ a.writer.pos := hroom
  rw [Gives, makeRoom_eq ha n, if_neg (by omega)]

/-! ## Changing the buffer -/

/-- With bytes laid behind the instructions. -/
def appended (a : Assembler) (bytes : ByteArray) : Assembler :=
  { a with buffer := overlay a.buffer a.pc bytes, pc := a.pc + bytes.size }

/-- Bytes that fit in front of the stream come after the instructions. -/
theorem appendBytes_gives (ha : a.Fits) {bytes : ByteArray} (hroom : a.HasRoom bytes.size) :
    Gives (appendBytes bytes) a () (a.appended bytes) ∧ (a.appended bytes).Fits ∧
      (a.appended bytes).contents = a.contents.emit (bytesOf bytes) := by
  have hpos := ha.pos_le
  have hroom' : a.pc + bytes.size ≤ a.writer.pos := hroom
  have hinside : a.pc + bytes.size ≤ a.buffer.size := Nat.le_trans hroom' hpos
  refine ⟨?_, ?_, ?_⟩
  · exact require_bind_eq_ok.2 ⟨decide_eq_true hinside, rfl⟩
  · refine ⟨hroom', ?_⟩
    rw [appended, size_overlay hinside]
    exact hpos
  · have hcode : ((bytesOf a.buffer).take a.pc).length = a.pc := ha.length_code
    have hfront : ((bytesOf a.buffer).take a.pc ++ bytesOf bytes).length = a.pc + bytes.size := by
      rw [List.length_append, length_bytesOf, hcode]
    simp only [contents, appended, Contents.emit, Contents.mk.injEq, true_and, and_true]
    rw [drop_overlay hroom' hpos]
    refine ⟨?_, rfl⟩
    rw [bytesOf_overlay]
    exact List.take_left' hfront

/-- **Emitting does not fault, and what is emitted comes after the instructions.** -/
theorem emit_reaches (ha : a.Fits) (bytes : ByteArray) :
    Reaches (emit bytes) a fun answer a' =>
      a'.Fits ∧ a'.contents =
        match answer with
        | .ok _ => a.contents.emit (bytesOf bytes)
        | .error _ => a.contents := by
  refine (makeRoom_reaches ha bytes.size).bind ?_ ?_
  · rintro e mid ⟨hmid, hcontents, -⟩
    exact ⟨hmid, hcontents⟩
  · rintro ⟨⟩ mid ⟨hmid, hcontents, hroom⟩
    have hfree : mid.pc + (bytes.size + gap) ≤ mid.writer.pos := hroom rfl
    have hbytes : mid.pc + bytes.size ≤ mid.writer.pos := by omega
    obtain ⟨hgives, hfits, happend⟩ := appendBytes_gives hmid hbytes
    refine .of_gives hgives ⟨hfits, ?_⟩
    rw [happend, hcontents]

theorem emit_of_room (ha : a.Fits) {bytes : ByteArray} (hroom : a.HasRoom (bytes.size + gap)) :
    Gives (emit bytes) a () (a.appended bytes) := by
  have hbytes : a.HasRoom bytes.size := Nat.le_trans (by omega) hroom
  exact gives_bind.2 ⟨(), a, makeRoom_of_room ha hroom, (appendBytes_gives ha hbytes).1⟩

/-- At most 11 bytes that were held back and 15 of a record: less than the gap. -/
theorem length_call_le_gap {e e' : Encoder} {c : Call} {bytes : List UInt8} (he : e.Sound)
    (h : e.call c = .ok (bytes, e')) : bytes.length ≤ gap := by
  have hcost := length_call_le he h
  have hheld := length_heldBytes_le he
  have hmax : maxRecordSize = 15 := rfl
  have hgap : gap = 32 := rfl
  omega

/-- What the writer does in the gap leaves the instructions alone. -/
theorem call_contents (ha : a.Fits) (hroom : a.HasRoom gap) (hsound : a.writer.encoder.Sound)
    {c : Call} {w : Writer} {buffer : ByteArray}
    (h : a.writer.call a.buffer c = .ok (w, buffer)) :
    ∃ bytes, a.writer.encoder.call c = .ok (bytes, w.encoder) ∧
      Fits { a with buffer := buffer, writer := w } ∧
      contents { a with buffer := buffer, writer := w } = a.contents.append bytes w.encoder := by
  obtain ⟨bytes, hcall, hplaced⟩ := Writer.call_inv h
  have hlow := hplaced.low_add
  have hlength := length_call_le_gap hsound hcall
  have hroom' : a.pc + gap ≤ a.writer.pos := hroom
  refine ⟨bytes, hcall, ⟨?_, ?_⟩, ?_⟩
  · change a.pc ≤ w.pos
    omega
  · change w.pos ≤ buffer.size
    rw [hplaced.size_eq]
    exact Nat.le_trans (by omega) ha.pos_le
  · simp only [contents, Contents.append, Contents.mk.injEq, true_and, and_true]
    refine ⟨hplaced.take_eq (by omega), ?_⟩
    rw [hplaced.drop_eq, List.reverse_append, List.reverse_reverse]

/-- A record that the encoder takes is written where there is room. -/
theorem record_of_room (ha : a.Fits) (hroom : a.HasRoom gap) (hsound : a.writer.encoder.Sound)
    {mode : Mode} {data : Int64} {bytes : List UInt8} {encoder : Encoder}
    (hmode : mode.isNone = false)
    (h : a.writer.encoder.call (.write ⟨UInt64.ofNat a.pc, mode, data⟩) = .ok (bytes, encoder)) :
    ∃ w buffer, a.writer.call a.buffer (.write ⟨UInt64.ofNat a.pc, mode, data⟩) =
        .ok (w, buffer) ∧
      Gives (record mode data) a () { a with buffer := buffer, writer := w } := by
  have hlength := length_call_le_gap hsound h
  have hfree : a.pc + gap ≤ a.writer.pos := hroom
  obtain ⟨w, buffer, hwrite⟩ := Writer.call_of_room hsound h (by omega) ha.pos_le
  refine ⟨w, buffer, hwrite, ?_⟩
  rw [record, hmode]
  refine gives_bind.2 ⟨(), a, makeRoom_of_room ha ?_, bind_eq_ok.2 ⟨_, hwrite, rfl⟩⟩
  rw [Nat.zero_add]
  exact hroom

/-- A record that is held back leaves the buffer alone. -/
theorem record_held (ha : a.Fits) (hroom : a.HasRoom gap) (hsound : a.writer.encoder.Sound)
    {mode : Mode} {data : Int64} {encoder : Encoder} (hmode : mode.isNone = false)
    (h : a.writer.encoder.call (.write ⟨UInt64.ofNat a.pc, mode, data⟩) = .ok ([], encoder)) :
    Gives (record mode data) a () { a with writer := ⟨a.writer.pos, encoder⟩ } := by
  obtain ⟨⟨pos, _⟩, buffer, hwrite, hrecord⟩ := record_of_room ha hroom hsound hmode h
  obtain ⟨bytes, hbytes, hplaced⟩ := Writer.call_inv hwrite
  cases h.symm.trans hbytes
  obtain ⟨rfl, rfl⟩ := hplaced.unique (.nil _ _)
  exact hrecord

@[simp] theorem overwrite_pc (a : Assembler) (offset : Nat) (bytes : ByteArray) :
    (overwrite offset bytes a).pc = a.pc := by
  rw [overwrite]

@[simp] theorem overwrite_writer (a : Assembler) (offset : Nat) (bytes : ByteArray) :
    (overwrite offset bytes a).writer = a.writer := by
  rw [overwrite]

@[simp] theorem overwrite_positions (a : Assembler) (offset : Nat) (bytes : ByteArray) :
    (overwrite offset bytes a).positions = a.positions := by
  rw [overwrite]

/-- A buffer that differs in the instructions only. -/
theorem contents_with_buffer (ha : a.Fits) {buffer : ByteArray} {code : List UInt8}
    (hsize : buffer.size = a.buffer.size) (hcode : (bytesOf buffer).take a.pc = code)
    (hstream : (bytesOf buffer).drop a.writer.pos = (bytesOf a.buffer).drop a.writer.pos) :
    Fits { a with buffer := buffer } ∧
      contents { a with buffer := buffer } = { a.contents with code := code } := by
  refine ⟨⟨ha.pc_le, ?_⟩, ?_⟩
  · change a.writer.pos ≤ buffer.size
    rw [hsize]
    exact ha.pos_le
  · simp only [contents, hcode, hstream]

/-- What is laid over instructions does not reach the stream. -/
theorem overwrite_contents (ha : a.Fits) (offset : Nat) (bytes : ByteArray) :
    (overwrite offset bytes a).Fits ∧
      (overwrite offset bytes a).contents = a.contents.overwrite offset (bytesOf bytes) := by
  have hpc := ha.pc_le
  have hpos := ha.pos_le
  have hcode := ha.length_code
  have hlength : a.pc ≤ (bytesOf a.buffer).length := by
    rw [length_bytesOf]
    omega
  generalize hpiece : bytes.extract 0 (a.pc - offset) = piece
  have hbytes : bytesOf piece = (bytesOf bytes).take (a.pc - offset) := by
    rw [← hpiece, bytesOf_extract, List.drop_zero]
  have hsize : piece.size = ((bytesOf bytes).take (a.pc - offset)).length := by
    rw [← length_bytesOf, hbytes]
  have hoverwrite : overwrite offset bytes a =
      { a with buffer := overlay a.buffer offset piece } := by
    rw [overwrite, hpiece]
  have htake : (bytesOf (overlay a.buffer offset piece)).take a.pc =
      (a.contents.overwrite offset (bytesOf bytes)).code := by
    rw [bytesOf_overlay, hsize, hbytes, Contents.overwrite]
    exact take_lay _ _ _ hlength
  rw [hoverwrite]
  by_cases hoffset : offset ≤ a.pc
  · have hinside : offset + piece.size ≤ a.writer.pos := by
      rw [hsize, List.length_take]
      omega
    exact contents_with_buffer ha (size_overlay (Nat.le_trans hinside hpos)) htake
      (drop_overlay hinside hpos)
  · -- behind the instructions nothing is laid over anything
    have hempty : bytesOf piece = [] := by
      rw [hbytes, Nat.sub_eq_zero_of_le (by omega), List.take_zero]
    have hsame : overlay a.buffer offset piece = a.buffer := overlay_empty a.buffer offset hempty
    exact contents_with_buffer ha (by rw [hsame]) htake (by rw [hsame])

/-! ## Intact assemblers -/

/-- An assembler as its operations leave it behind: instructions and stream do not meet, and what
the writer holds back fits into the gap. -/
structure Intact (a : Assembler) : Prop extends a.Fits where
  sound : a.writer.encoder.Sound

theorem Intact.of_contents (ha : a.Intact) (hfits : a'.Fits)
    (hencoder : a'.contents.encoder = a.contents.encoder) : a'.Intact := by
  refine ⟨hfits, ?_⟩
  change a'.contents.encoder.Sound
  rw [hencoder]
  exact ha.sound

theorem emit_settles (ha : a.Intact) (bytes : ByteArray) :
    Settles (emit bytes) a fun _ a' =>
      a'.Intact ∧ a'.contents = a.contents.emit (bytesOf bytes) := by
  refine (emit_reaches ha.toFits bytes).mono ?_
  rintro answer a' ⟨hfits, hcontents⟩ v rfl
  refine ⟨ha.of_contents hfits ?_, hcontents⟩
  rw [hcontents]
  rfl

theorem emitZeros_settles (ha : a.Intact) (n : Nat) :
    Settles (emitZeros n) a fun _ a' =>
      a'.Intact ∧ a'.contents = a.contents.emit (List.replicate n 0) := by
  induction n generalizing a with
  | zero =>
    exact .of_gives (gives_pure.2 ⟨rfl, rfl⟩) ⟨ha, a.contents.emit_nil.symm⟩
  | succ n ih =>
    refine (emit_settles ha _).bind ?_
    rintro _ mid ⟨hmid, hbyte⟩
    refine (ih hmid).mono ?_
    rintro _ a' ⟨ha', hzeros⟩
    refine ⟨ha', ?_⟩
    rw [hzeros, hbyte, bytesOf_toByteArray, Contents.emit, Contents.emit, Contents.emit,
      List.append_assoc]
    rfl

/-- Emitting moves the end of the instructions by the bytes emitted. -/
theorem Fits.pc_emit (ha : a.Fits) (ha' : a'.Fits) {bytes : List UInt8}
    (hcontents : a'.contents = a.contents.emit bytes) : a'.pc = a.pc + bytes.length := by
  rw [← ha'.length_code, hcontents, ← ha.length_code, Contents.emit, List.length_append]

/-- Where the instructions end on a multiple, aligning does nothing; elsewhere zeros are emitted up
to the next one. -/
theorem align_settles (ha : a.Intact) (multiple : Nat) (htwo : 2 ≤ multiple)
    (hpower : multiple.isPowerOfTwo) :
    Settles (align multiple) a fun _ a' => a'.Intact ∧ a'.contents =
      a.contents.emit (List.replicate ((multiple - a.pc % multiple) % multiple) 0) := by
  have hrequire : require (2 ≤ multiple && multiple.isPowerOfTwo) .breach = .ok () := by
    rw [require_eq_ok, Bool.and_eq_true, decide_eq_true_eq, decide_eq_true_eq]
    exact ⟨htwo, hpower⟩
  refine .bind_gives (gives_lift.2 ⟨hrequire, rfl⟩) ?_
  refine .bind_gives (gives_get.2 ⟨rfl, rfl⟩) ?_
  exact emitZeros_settles ha _

end Assembler

end CodeReloc
