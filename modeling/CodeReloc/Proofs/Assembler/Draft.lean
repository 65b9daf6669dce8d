import CodeReloc.Assembler.Operation
import CodeReloc.Proofs.Assembler.Room

set_option autoImplicit false

/-!
# What an assembler was asked for

A draft is what the operations of an assembler ask for, without a buffer: instruction bytes, records
at their places, comments and announced positions. An assembler that answers every request reflects
the draft (`Reflects`): its instructions are the bytes of the draft, and its stream is what an
encoder makes of the records of the draft, however often the buffer was exchanged in between and
wherever a position was held back while it was. One lemma for each kind of request says so, and a
run of requests follows by induction (`Reflects.runAll`).

Main statement: `complete_of_draft`.
-/

namespace CodeReloc

/-- What was asked for. -/
structure Draft where
  code : List UInt8
  records : List Record
  comments : List String
  positions : Positions
  deriving DecidableEq

namespace Draft

/-- Nothing asked for. -/
def empty : Draft := ⟨[], [], [], .start⟩

/-- More instruction bytes. -/
def emit (d : Draft) (bytes : List UInt8) : Draft := { d with code := d.code ++ bytes }

/-- One more record, at the end of the instructions. A marker for "nothing to relocate" is
dropped. -/
def record (d : Draft) (mode : Mode) (data : Int64) : Draft :=
  if mode.isNone then d
  else { d with records := d.records ++ [⟨UInt64.ofNat d.code.length, mode, data⟩] }

/-- Bytes laid over the instructions. -/
def overwrite (d : Draft) (offset : Nat) (bytes : List UInt8) : Draft :=
  { d with code := layOver d.code offset bytes }

/-- Records of positions, one after the other. -/
def recordPositions (d : Draft) (positions : List (Mode × Int32)) : Draft :=
  positions.foldl (fun d entry => d.record entry.1 entry.2.toInt64) d

/-- Records of the positions that are missing. -/
def writePositions (d : Draft) : Draft :=
  recordPositions { d with positions := d.positions.takeMissing.2 } d.positions.takeMissing.1

/-- One more request. -/
def step (options : AssemblerOptions) (d : Draft) : Operation → Draft
  | .emitByte value => d.emit [value]
  | .emitWord32 value => d.emit (leBytes 4 value.toNat)
  | .emitWord64 value => d.emit (leBytes 8 value.toNat)
  | .emit bytes => d.emit (bytesOf bytes)
  | .align multiple =>
    d.emit (List.replicate ((multiple - d.code.length % multiple) % multiple) 0)
  | .keepGap => d
  | .record mode data => d.record mode data
  | .comment text =>
    if options.comments then
      { d with comments := d.comments ++ [text] }.record .comment (Int64.ofNat d.comments.length)
    else d
  | .deoptReason reason position =>
    if options.deoptReasons then
      (d.record .position (if position = noPosition then 0 else position.toInt64)).record
        .deoptReason (Int64.ofNat reason.toNat)
    else d
  | .generatorContinuation => d.record .generatorContinuation 0
  | .debugBreakSlot mode arguments => d.record mode arguments.toInt64
  | .constPool size => d.record .constPool size.toInt64
  | .veneerPool size => d.record .veneerPool size.toInt64
  | .externalReference address =>
    (d.record .externalReference 0).emit (leBytes 8 address.toNat)
  | .announce position => { d with positions := { d.positions with current := position } }
  | .announceStatement position =>
    { d with positions := { d.positions with currentStatement := position } }
  | .writePositions => d.writePositions
  | .overwrite offset bytes => d.overwrite offset (bytesOf bytes)

/-- All requests, and the positions that are missing at the end. -/
def ofOperations (options : AssemblerOptions) (operations : List Operation) : Draft :=
  (operations.foldl (step options) empty).writePositions

end Draft

/-- Requests one after the other. -/
def Operation.runAll : List Operation → Assembly Unit
  | [] => pure ()
  | operation :: operations => do
    operation.run
    runAll operations

/-- One more operation is answered behind the others. -/
theorem Operation.runAll_concat {operations : List Operation} {operation : Operation}
    {a mid a' : Assembler} (h : Gives (runAll operations) a () mid)
    (hlast : Gives operation.run mid () a') : Gives (runAll (operations ++ [operation])) a () a' := by
  induction operations generalizing a with
  | nil =>
    obtain ⟨-, rfl⟩ := gives_pure.1 h
    exact gives_bind.2 ⟨(), a', hlast, gives_pure.2 ⟨rfl, rfl⟩⟩
  | cons first rest ih =>
    obtain ⟨_, between, hfirst, hrest⟩ := gives_bind.1 h
    exact gives_bind.2 ⟨(), between, hfirst, ih hrest⟩

/-- The assembler holds what was asked for: the stream is what an encoder makes of the records. -/
structure Reflects (options : AssemblerOptions) (d : Draft) (a : Assembler) : Prop where
  fits : a.Fits
  options_eq : a.contents.options = options
  code_eq : a.contents.code = d.code
  stream_eq : Encoder.start.run (d.records.map .write) =
    .ok (a.contents.stream, a.contents.encoder)
  comments_eq : a.contents.comments.toList = d.comments
  positions_eq : a.contents.positions = d.positions

/-- What writing positions comes to. -/
theorem Assembler.gives_writePositions {a a' : Assembler} {any : Bool} :
    Gives writePositions a any a' ↔
      Gives (recordPositions a.positions.takeMissing.1)
          { a with positions := a.positions.takeMissing.2 } () a' ∧
        any = !a.positions.takeMissing.1.isEmpty := by
  -- the definition takes the pair of missing records and positions apart
  have hwrite : writePositions = (do
      let a ← get
      set { a with positions := a.positions.takeMissing.2 }
      recordPositions a.positions.takeMissing.1
      return !a.positions.takeMissing.1.isEmpty) := rfl
  rw [hwrite]
  constructor
  · intro h
    obtain ⟨_, mid, hget, hrest⟩ := gives_bind.1 h
    obtain ⟨rfl, rfl⟩ := gives_get.1 hget
    obtain ⟨_, mid', hset, hrest'⟩ := gives_bind.1 hrest
    obtain rfl := gives_set.1 hset
    obtain ⟨_, mid', hrecord, hreturn⟩ := gives_bind.1 hrest'
    obtain ⟨rfl, rfl⟩ := gives_pure.1 hreturn
    exact ⟨hrecord, rfl⟩
  · rintro ⟨hrecord, rfl⟩
    refine gives_bind.2 ⟨a, a, gives_get.2 ⟨rfl, rfl⟩, ?_⟩
    refine gives_bind.2 ⟨⟨⟩, _, gives_set.2 rfl, ?_⟩
    exact gives_bind.2 ⟨(), a', hrecord, gives_pure.2 ⟨rfl, rfl⟩⟩

namespace Reflects

variable {options : AssemblerOptions} {d : Draft} {a a' : Assembler} {u : Unit}

theorem new (options : AssemblerOptions) : Reflects options .empty (.new options) := by
  have hsize : (Assembler.new options).buffer.size = (Assembler.new options).writer.pos :=
    size_copies _ _
  refine ⟨⟨Nat.zero_le _, Nat.le_of_eq hsize.symm⟩, rfl, rfl, ?_, rfl, rfl⟩
  have hstream : (Assembler.new options).contents.stream = [] := by
    rw [Assembler.contents, ← hsize, ← length_bytesOf, List.drop_length, List.reverse_nil]
  rw [hstream]
  rfl

/-- What the writer holds back comes from records of the draft. -/
theorem intact (ha : Reflects options d a) : a.Intact :=
  ⟨ha.fits, Encoder.Sound.run .start ha.stream_eq⟩

/-- The end of the instructions. -/
theorem pc_eq (ha : Reflects options d a) : a.pc = d.code.length := by
  rw [← ha.fits.length_code, ha.code_eq]

/-- Nothing but places has changed. -/
theorem moved (ha : Reflects options d a) (hfits : a'.Fits) (hcontents : a'.contents = a.contents) :
    Reflects options d a' := by
  constructor
  · exact hfits
  · rw [hcontents, ha.options_eq]
  · rw [hcontents, ha.code_eq]
  · rw [hcontents, ha.stream_eq]
  · rw [hcontents, ha.comments_eq]
  · rw [hcontents, ha.positions_eq]

/-- The instructions have changed, and the draft has in the same way. -/
theorem with_code (ha : Reflects options d a) {code : List UInt8} (hfits : a'.Fits)
    (hcontents : a'.contents = { a.contents with code := code }) :
    Reflects options { d with code := code } a' := by
  constructor
  · exact hfits
  · rw [hcontents, ha.options_eq]
  · rw [hcontents]
  · rw [hcontents, ha.stream_eq]
  · rw [hcontents, ha.comments_eq]
  · rw [hcontents, ha.positions_eq]

theorem with_positions (ha : Reflects options d a) (positions : Positions) :
    Reflects options { d with positions := positions } { a with positions := positions } :=
  ⟨⟨ha.fits.pc_le, ha.fits.pos_le⟩, ha.options_eq, ha.code_eq, ha.stream_eq, ha.comments_eq, rfl⟩

theorem with_comment (ha : Reflects options d a) (text : String) :
    Reflects options { d with comments := d.comments ++ [text] }
      { a with comments := a.comments.push text } := by
  have htable : (a.comments.push text).toList = d.comments ++ [text] := by
    rw [Array.toList_push, ← ha.comments_eq]
    rfl
  exact ⟨⟨ha.fits.pc_le, ha.fits.pos_le⟩, ha.options_eq, ha.code_eq, ha.stream_eq, htable,
    ha.positions_eq⟩

/-! ## Instructions -/

theorem makeRoom (ha : Reflects options d a) {n : Nat} (h : Gives (Assembler.makeRoom n) a u a') :
    Reflects options d a' ∧ a'.HasRoom (n + gap) := by
  obtain ⟨hfits, hcontents, hroom⟩ := (Assembler.makeRoom_reaches ha.fits n).of_answer h
  exact ⟨ha.moved hfits hcontents, hroom rfl⟩

theorem emit (ha : Reflects options d a) {bytes : ByteArray}
    (h : Gives (Assembler.emit bytes) a u a') : Reflects options (d.emit (bytesOf bytes)) a' := by
  obtain ⟨hfits, hcontents⟩ := (Assembler.emit_reaches ha.fits bytes).of_answer h
  rw [Draft.emit, ← ha.code_eq]
  exact ha.with_code hfits hcontents

theorem emitZeros (ha : Reflects options d a) {n : Nat}
    (h : Gives (Assembler.emitZeros n) a u a') :
    Reflects options (d.emit (List.replicate n 0)) a' := by
  induction n generalizing a d with
  | zero =>
    obtain ⟨-, rfl⟩ := gives_pure.1 h
    rw [Draft.emit, List.replicate_zero, List.append_nil]
    exact ha
  | succ n ih =>
    obtain ⟨_, mid, hbyte, hrest⟩ := gives_bind.1 h
    have hmid := ih (ha.emit hbyte) hrest
    rw [bytesOf_toByteArray, Draft.emit, Draft.emit, List.append_assoc] at hmid
    exact hmid

theorem align (ha : Reflects options d a) {multiple : Nat}
    (h : Gives (Assembler.align multiple) a u a') :
    Reflects options (d.step options (.align multiple)) a' := by
  obtain ⟨_, mid, hrequire, hrest⟩ := gives_bind.1 h
  obtain ⟨-, rfl⟩ := gives_lift.1 hrequire
  obtain ⟨_, mid', hget, hzeros⟩ := gives_bind.1 hrest
  obtain ⟨rfl, rfl⟩ := gives_get.1 hget
  rw [Draft.step, ← ha.pc_eq]
  exact ha.emitZeros hzeros

theorem overwrite (ha : Reflects options d a) (offset : Nat) (bytes : ByteArray) :
    Reflects options (d.overwrite offset (bytesOf bytes)) (a.overwrite offset bytes) := by
  obtain ⟨hfits, hcontents⟩ := Assembler.overwrite_contents ha.fits offset bytes
  rw [Draft.overwrite, ← ha.code_eq]
  exact ha.with_code hfits hcontents

/-! ## Records -/

/-- What the writer does in the gap, for a call that asks for one more record. -/
theorem call (ha : Reflects options d a) (hroom : a.HasRoom gap) {r : Record} {w : Writer}
    {buffer : ByteArray} (h : a.writer.call a.buffer (.write r) = .ok (w, buffer)) :
    Reflects options { d with records := d.records ++ [r] }
      { a with buffer := buffer, writer := w } := by
  obtain ⟨bytes, hcall, hfits, hcontents⟩ :=
    Assembler.call_contents ha.fits hroom ha.intact.sound h
  constructor
  · exact hfits
  · rw [hcontents]
    exact ha.options_eq
  · rw [hcontents]
    exact ha.code_eq
  · -- the run of the encoder goes on with one more call
    rw [hcontents, List.map_append]
    exact Encoder.run_concat ha.stream_eq hcall
  · rw [hcontents]
    exact ha.comments_eq
  · rw [hcontents]
    exact ha.positions_eq

theorem record (ha : Reflects options d a) {mode : Mode} {data : Int64}
    (h : Gives (Assembler.record mode data) a u a') :
    Reflects options (d.record mode data) a' := by
  rw [Draft.record]
  cases hnone : mode.isNone with
  | true =>
    rw [Assembler.record, hnone] at h
    obtain ⟨-, rfl⟩ := gives_pure.1 h
    exact ha
  | false =>
    rw [Assembler.record, hnone] at h
    obtain ⟨_, mid, hroom, happend⟩ := gives_bind.1 h
    -- the buffer may be another one now, but it holds the same and the gap is free
    obtain ⟨hmid, hfree⟩ := ha.makeRoom hroom
    rw [Nat.zero_add] at hfree
    obtain ⟨⟨w, buffer⟩, hwrite, happend⟩ := bind_eq_ok.1 happend
    cases happend
    rw [← hmid.pc_eq]
    exact hmid.call hfree hwrite

theorem recordPositions (ha : Reflects options d a) {positions : List (Mode × Int32)}
    (h : Gives (Assembler.recordPositions positions) a u a') :
    Reflects options (d.recordPositions positions) a' := by
  induction positions generalizing a d with
  | nil =>
    obtain ⟨-, rfl⟩ := gives_pure.1 h
    exact ha
  | cons entry positions ih =>
    obtain ⟨_, mid, hrecord, hrest⟩ := gives_bind.1 h
    exact ih (ha.record hrecord) hrest

theorem writePositions (ha : Reflects options d a) {any : Bool}
    (h : Gives Assembler.writePositions a any a') : Reflects options d.writePositions a' := by
  obtain ⟨hrecord, -⟩ := Assembler.gives_writePositions.1 h
  rw [Draft.writePositions, ← ha.positions_eq]
  exact (ha.with_positions _).recordPositions hrecord

/-! ## Requests -/

theorem comment (ha : Reflects options d a) {text : String}
    (h : Gives (Assembler.comment text) a u a') :
    Reflects options (d.step options (.comment text)) a' := by
  obtain ⟨_, mid, hget, hrest⟩ := gives_bind.1 h
  obtain ⟨rfl, rfl⟩ := gives_get.1 hget
  have hoptions : mid.options = options := ha.options_eq
  rw [hoptions] at hrest
  rw [Draft.step]
  split at hrest
  · rename_i hcomments
    rw [if_pos hcomments]
    obtain ⟨index, mid', hadd, hrecord⟩ := gives_bind.1 hrest
    cases hadd
    have hlength : mid.comments.size = d.comments.length := by
      rw [← ha.comments_eq, Array.length_toList]
      rfl
    rw [← hlength]
    exact (ha.with_comment text).record hrecord
  · rename_i hcomments
    obtain ⟨-, rfl⟩ := gives_pure.1 hrest
    rw [if_neg hcomments]
    exact ha

theorem deoptReason (ha : Reflects options d a) {reason : UInt8} {position : Int32}
    (h : Gives (Assembler.deoptReason reason position) a u a') :
    Reflects options (d.step options (.deoptReason reason position)) a' := by
  obtain ⟨_, mid, hget, hrest⟩ := gives_bind.1 h
  obtain ⟨rfl, rfl⟩ := gives_get.1 hget
  have hoptions : mid.options = options := ha.options_eq
  rw [hoptions] at hrest
  rw [Draft.step]
  split at hrest
  · rename_i hrecorded
    rw [if_pos hrecorded]
    obtain ⟨_, mid', hposition, hreason⟩ := gives_bind.1 hrest
    exact (ha.record hposition).record hreason
  · rename_i hrecorded
    obtain ⟨-, rfl⟩ := gives_pure.1 hrest
    rw [if_neg hrecorded]
    exact ha

/-- Positions that are replaced by what is answered for them. -/
theorem replacePositions (ha : Reflects options d a) (f : Positions → Except Fault Positions)
    (h : Gives (do
      let a ← get
      let positions ← f a.positions
      set { a with positions := positions } : Assembly Unit) a u a') :
    ∃ positions, f d.positions = .ok positions ∧
      Reflects options { d with positions := positions } a' := by
  obtain ⟨_, mid, hget, hrest⟩ := gives_bind.1 h
  obtain ⟨rfl, rfl⟩ := gives_get.1 hget
  obtain ⟨positions, mid', hlift, hset⟩ := gives_bind.1 hrest
  obtain ⟨hpositions, rfl⟩ := gives_lift.1 hlift
  obtain rfl := gives_set.1 hset
  rw [← ha.positions_eq]
  exact ⟨positions, hpositions, ha.with_positions positions⟩

theorem announce (ha : Reflects options d a) {position : Int32}
    (h : Gives (Assembler.announce position) a u a') :
    Reflects options (d.step options (.announce position)) a' := by
  obtain ⟨positions, hannounce, hreplaced⟩ := ha.replacePositions (·.announce position) h
  obtain ⟨-, hpositions⟩ := require_bind_eq_ok.1 hannounce
  cases hpositions
  exact hreplaced

theorem announceStatement (ha : Reflects options d a) {position : Int32}
    (h : Gives (Assembler.announceStatement position) a u a') :
    Reflects options (d.step options (.announceStatement position)) a' := by
  obtain ⟨positions, hannounce, hreplaced⟩ := ha.replacePositions (·.announceStatement position) h
  obtain ⟨-, hpositions⟩ := require_bind_eq_ok.1 hannounce
  cases hpositions
  exact hreplaced

theorem debugBreakSlot (ha : Reflects options d a) {mode : Mode} {arguments : Int32}
    (h : Gives (Assembler.debugBreakSlot mode arguments) a u a') :
    Reflects options (d.step options (.debugBreakSlot mode arguments)) a' := by
  obtain ⟨_, mid, hrequire, hrecord⟩ := gives_bind.1 h
  obtain ⟨-, rfl⟩ := gives_lift.1 hrequire
  exact ha.record hrecord

theorem externalReference (ha : Reflects options d a) {address : UInt64}
    (h : Gives (Assembler.externalReference address) a u a') :
    Reflects options (d.step options (.externalReference address)) a' := by
  obtain ⟨_, mid, hrecord, hword⟩ := gives_bind.1 h
  have hemitted := (ha.record hrecord).emit hword
  rw [bytesOf_toByteArray] at hemitted
  exact hemitted

/-- **A request that is answered.** -/
theorem run (ha : Reflects options d a) {operation : Operation} (h : Gives operation.run a u a') :
    Reflects options (d.step options operation) a' := by
  cases operation with
  | emitByte value | emitWord32 value | emitWord64 value =>
    have hemitted := ha.emit h
    rw [bytesOf_toByteArray] at hemitted
    exact hemitted
  | emit bytes => exact ha.emit h
  | align multiple => exact ha.align h
  | keepGap => exact (ha.makeRoom h).1
  | record mode data => exact ha.record h
  | comment text => exact ha.comment h
  | deoptReason reason position => exact ha.deoptReason h
  | generatorContinuation | constPool size | veneerPool size => exact ha.record h
  | debugBreakSlot mode arguments => exact ha.debugBreakSlot h
  | externalReference address => exact ha.externalReference h
  | announce position => exact ha.announce h
  | announceStatement position => exact ha.announceStatement h
  | writePositions =>
    obtain ⟨any, hwrite⟩ := gives_discard.1 h
    exact ha.writePositions hwrite
  | overwrite offset bytes =>
    obtain rfl := gives_modify.1 h
    exact ha.overwrite offset bytes

/-- Requests that are all answered. -/
theorem runAll (ha : Reflects options d a) {operations : List Operation}
    (h : Gives (Operation.runAll operations) a u a') :
    Reflects options (operations.foldl (Draft.step options) d) a' := by
  induction operations generalizing a d with
  | nil =>
    obtain ⟨-, rfl⟩ := gives_pure.1 h
    exact ha
  | cons operation operations ih =>
    obtain ⟨_, mid, hrun, hrest⟩ := gives_bind.1 h
    exact ih (ha.run hrun) hrest

end Reflects

/-! ## The finished code -/

/-- What is cut out of the buffer of an assembler. -/
theorem Assembler.Fits.descriptor_eq {a : Assembler} (ha : a.Fits) {streamSize : Nat}
    (hsize : a.streamSize = .ok streamSize) (comments : Array String) :
    ∃ stream instructions,
      Descriptor.stream ⟨a.buffer, a.pc, streamSize, comments⟩ = .ok stream ∧
      bytesOf stream = a.contents.stream.reverse ∧
      Descriptor.instructions ⟨a.buffer, a.pc, streamSize, comments⟩ = .ok instructions ∧
      bytesOf instructions = a.contents.code := by
  have hpc := ha.pc_le
  have hpos := ha.pos_le
  cases ha.streamSize_eq.symm.trans hsize
  have hback : a.buffer.size - (a.buffer.size - a.writer.pos) = a.writer.pos := by omega
  have hinside : a.buffer.size - a.writer.pos ≤ a.buffer.size := Nat.sub_le _ _
  have hinside' : a.pc ≤ a.buffer.size := Nat.le_trans hpc hpos
  refine ⟨_, _, require_bind_eq_ok.2 ⟨decide_eq_true hinside, rfl⟩, ?_,
    require_bind_eq_ok.2 ⟨decide_eq_true hinside', rfl⟩, ?_⟩
  · rw [hback, bytesOf_extract, ← length_bytesOf, List.take_length, contents, List.reverse_reverse]
  · rw [bytesOf_extract, List.drop_zero, contents]

/-- Announcing a position changes nothing else. -/
theorem Assembler.announce_gives {a : Assembler} {position : Int32} {positions : Positions}
    (h : a.positions.announce position = .ok positions) :
    Gives (announce position) a () { a with positions := positions } := by
  refine gives_bind.2 ⟨a, a, gives_get.2 ⟨rfl, rfl⟩, ?_⟩
  exact gives_bind.2 ⟨positions, a, gives_lift.2 ⟨h, rfl⟩, gives_set.2 rfl⟩

/-- A single missing position that is held back. -/
theorem Assembler.writePositions_held {a : Assembler} (ha : a.Fits) (hroom : a.HasRoom gap)
    (hsound : a.writer.encoder.Sound) {mode : Mode} {position : Int32} {positions : Positions}
    {encoder : Encoder} (hmissing : a.positions.takeMissing = ([(mode, position)], positions))
    (hmode : mode.isNone = false)
    (h : a.writer.encoder.call (.write ⟨UInt64.ofNat a.pc, mode, position.toInt64⟩) =
      .ok ([], encoder)) :
    Gives writePositions a true
      { a with writer := ⟨a.writer.pos, encoder⟩, positions := positions } := by
  have hready : Fits { a with positions := positions } := ⟨ha.pc_le, ha.pos_le⟩
  have hrecord := record_held hready hroom hsound hmode h
  rw [gives_writePositions, hmissing]
  exact ⟨gives_bind.2 ⟨(), _, hrecord, gives_pure.2 ⟨rfl, rfl⟩⟩, rfl⟩

/-- An assembler completes if there is room for what is held back once it has written the positions
that were missing. -/
theorem Assembler.complete_of_written {a mid : Assembler} {any : Bool}
    (hwrite : Gives writePositions a any mid) (hmid : mid.Fits) (hroom : mid.HasRoom gap)
    (hsound : mid.writer.encoder.Sound) : ∃ d a', Gives complete a d a' := by
  have hkeep : Gives keepGap mid () mid := by
    apply makeRoom_of_room hmid
    rw [Nat.zero_add]
    exact hroom
  have hheld := length_heldBytes_le hsound
  have hfree : mid.pc + 32 ≤ mid.writer.pos := hroom
  obtain ⟨w, buffer, hfinish⟩ :=
    Writer.finish_of_room (w := mid.writer) (by omega) hmid.pos_le
  obtain ⟨-, -, hfits, -⟩ := call_contents (c := .finish) hmid hroom hsound hfinish
  have hflush : Gives finishStream mid () { mid with buffer := buffer, writer := w } :=
    bind_eq_ok.2 ⟨_, hfinish, rfl⟩
  refine ⟨⟨buffer, mid.pc, buffer.size - w.pos, mid.comments⟩,
    { mid with buffer := buffer, writer := w }, ?_⟩
  refine gives_bind.2 ⟨any, mid, hwrite, gives_bind.2 ⟨(), mid, hkeep, ?_⟩⟩
  refine gives_bind.2 ⟨(), _, hflush, ?_⟩
  refine gives_bind.2 ⟨_, _, gives_get.2 ⟨rfl, rfl⟩, ?_⟩
  exact gives_bind.2 ⟨_, _, gives_lift.2 ⟨hfits.streamSize_eq, rfl⟩, gives_pure.2 ⟨rfl, rfl⟩⟩

/-- An assembler with room for what is held back and without missing positions completes. -/
theorem Assembler.complete_of_room {a : Assembler} (ha : a.Fits) (hroom : a.HasRoom gap)
    (hsound : a.writer.encoder.Sound) (hmissing : a.positions.takeMissing = ([], a.positions)) :
    ∃ d a', Gives complete a d a' := by
  have hwrite : Gives writePositions a false a := by
    rw [gives_writePositions, hmissing]
    exact ⟨gives_pure.2 ⟨rfl, rfl⟩, rfl⟩
  exact complete_of_written hwrite ha hroom hsound

/-- The stream of an assembler that has finished it is what the records are encoded by. -/
theorem Reflects.encode_eq {options : AssemblerOptions} {d : Draft} {a : Assembler}
    (ha : Reflects options d a) (hroom : a.HasRoom gap) {w : Writer} {buffer stream : ByteArray}
    (h : a.writer.finish a.buffer = .ok (w, buffer))
    (hstream : bytesOf stream =
      (Assembler.contents { a with buffer := buffer, writer := w }).stream.reverse) :
    encode d.records = .ok stream := by
  obtain ⟨bytes, hcall, -, hcontents⟩ :=
    Assembler.call_contents (c := .finish) ha.fits hroom ha.intact.sound h
  have hrun : Encoder.start.run (callsOf d.records) =
      .ok (a.contents.stream ++ bytes, w.encoder) :=
    Encoder.run_concat ha.stream_eq hcall
  rw [hcontents] at hstream
  exact encode_eq_ok.2 ⟨_, _, hrun, hstream⟩

/-- **An assembler that answers every request leaves behind what it was asked for.** The stream is
the encoding of the records, whatever the buffer went through. -/
theorem complete_of_draft (options : AssemblerOptions) (operations : List Operation)
    {d : Descriptor} {a : Assembler}
    (h : Gives (do Operation.runAll operations; Assembler.complete) (Assembler.new options) d a) :
    ∃ stream, encode (Draft.ofOperations options operations).records = .ok stream ∧
      d.stream = .ok stream ∧
      d.instructions = .ok (Draft.ofOperations options operations).code.toByteArray ∧
      d.comments.toList = (Draft.ofOperations options operations).comments := by
  obtain ⟨_, asked, hrun, hcomplete⟩ := gives_bind.1 h
  -- completing: missing positions are written, the gap is kept, the stream is finished and cut off
  obtain ⟨_, flushed, hwrite, hrest⟩ := gives_bind.1 hcomplete
  obtain ⟨_, roomy, hroom, hrest'⟩ := gives_bind.1 hrest
  obtain ⟨_, last, hfinish, hcut⟩ := gives_bind.1 hrest'
  obtain ⟨_, mid, hget, hsize⟩ := gives_bind.1 hcut
  obtain ⟨rfl, rfl⟩ := gives_get.1 hget
  obtain ⟨streamSize, mid, hlift, hreturn⟩ := gives_bind.1 hsize
  obtain ⟨hstreamSize, rfl⟩ := gives_lift.1 hlift
  obtain ⟨rfl, -⟩ := gives_pure.1 hreturn
  have hdraft := ((Reflects.new options).runAll hrun).writePositions hwrite
  obtain ⟨hready, hfree⟩ := hdraft.makeRoom hroom
  rw [Nat.zero_add] at hfree
  obtain ⟨⟨w, buffer⟩, hflush, hset⟩ := bind_eq_ok.1 hfinish
  cases hset
  obtain ⟨bytes, -, hfits, hcontents⟩ :=
    Assembler.call_contents (c := .finish) hready.fits hfree hready.intact.sound hflush
  obtain ⟨stream, instructions, hstream, hbytes, hinstructions, hcode⟩ :=
    hfits.descriptor_eq hstreamSize roomy.comments
  have hencode := hready.encode_eq hfree hflush hbytes
  refine ⟨stream, hencode, hstream, hinstructions.trans (congrArg Except.ok ?_), ?_⟩
  · apply bytesOf_injective
    rw [hcode, hcontents, bytesOf_toByteArray]
    exact hready.code_eq
  · exact hready.comments_eq

/-- A position that is held back, one that is announced behind it and written at the end, and a byte
that is laid over another. -/
theorem complete_of_draft_position :
    ∃ d a, Gives (do
        Operation.runAll [.emitWord32 3735928559, .record .position 5, .announce 9,
          .overwrite 0 [1].toByteArray]
        Assembler.complete) (Assembler.new .standard) d a ∧
      ∃ stream, encode [⟨4, .position, 5⟩, ⟨4, .position, 9⟩] = .ok stream ∧
        d.stream = .ok stream ∧ d.instructions = .ok [1, 190, 173, 222].toByteArray ∧
          d.comments.toList = [] := by
  have hnew := Reflects.new .standard
  have hroom : (Assembler.new .standard).HasRoom
      ((leBytes 4 (3735928559 : UInt32).toNat).toByteArray.size + gap) := by
    have hsize : (leBytes 4 (3735928559 : UInt32).toNat).toByteArray.size = 4 := by decide +kernel
    rw [hsize]
    exact (by decide : 0 + (4 + gap) ≤ 4096)
  -- the word fits into the buffer that the assembler begins with
  have hword : Gives (Operation.run (.emitWord32 3735928559)) (.new .standard) () _ :=
    Assembler.emit_of_room hnew.fits hroom
  have hemitted := hnew.run hword
  generalize hmid : (Assembler.new .standard).appended
    (leBytes 4 (3735928559 : UInt32).toNat).toByteArray = mid at hword hemitted
  have hpc : mid.pc = 4 := hemitted.pc_eq
  have hwriter : mid.writer = .new 4096 := by
    rw [← hmid]
    rfl
  have hpositions : mid.positions = .start := hemitted.positions_eq
  have hfree : mid.HasRoom gap := by
    rw [Assembler.HasRoom, hpc, hwriter]
    decide
  have hsound : mid.writer.encoder.Sound := by
    rw [hwriter]
    exact .start
  have hcall : mid.writer.encoder.call (.write ⟨UInt64.ofNat mid.pc, .position, 5⟩) =
      .ok ([], ⟨4, 0, 5, some .position, some ⟨4, 5⟩⟩) := by
    rw [hwriter, hpc]
    decide +kernel
  have hrecord := Assembler.record_held hemitted.fits hfree hsound rfl hcall
  have hrecorded := hemitted.record hrecord
  generalize hheld : ({ mid with
    writer := ⟨mid.writer.pos, ⟨4, 0, 5, some .position, some ⟨4, 5⟩⟩⟩ } : Assembler) = held
    at hrecord hrecorded
  have hannounce : Gives (Assembler.announce 9) held ()
      { held with positions := ⟨9, -1, -1, -1⟩ } := by
    apply Assembler.announce_gives
    rw [← hheld, hpositions]
    decide +kernel
  have hdrafted := (hrecorded.announce hannounce).overwrite 0 [1].toByteArray
  generalize hchanged : Assembler.overwrite 0 [1].toByteArray
    { held with positions := ⟨9, -1, -1, -1⟩ } = changed at hdrafted
  have hwriter' : changed.writer = ⟨4096, ⟨4, 0, 5, some .position, some ⟨4, 5⟩⟩⟩ := by
    rw [← hchanged, Assembler.overwrite_writer, ← hheld, hwriter]
    rfl
  have hpc' : changed.pc = 4 := hdrafted.pc_eq
  have hmissing : changed.positions.takeMissing = ([(.position, 9)], ⟨9, -1, 9, -1⟩) := by
    rw [← hchanged, Assembler.overwrite_positions]
    change Positions.takeMissing ⟨9, -1, -1, -1⟩ = _
    decide +kernel
  have hfree' : changed.HasRoom gap := by
    rw [Assembler.HasRoom, hpc', hwriter']
    decide
  have hsound' : changed.writer.encoder.Sound := by
    rw [hwriter']
    exact hsound.call hcall
  -- the position takes the place of the one that is held back
  have hcall' : changed.writer.encoder.call (.write ⟨UInt64.ofNat changed.pc, .position, 9⟩) =
      .ok ([], ⟨4, 0, 9, some .position, some ⟨4, 9⟩⟩) := by
    rw [hwriter', hpc']
    decide +kernel
  have hwrite :=
    Assembler.writePositions_held hdrafted.fits hfree' hsound' hmissing rfl hcall'
  obtain ⟨d, a, hcomplete⟩ := Assembler.complete_of_written hwrite
    (hdrafted.writePositions hwrite).fits hfree' (hsound'.call hcall')
  have hrun : Gives (do
        Operation.runAll [.emitWord32 3735928559, .record .position 5, .announce 9,
          .overwrite 0 [1].toByteArray]
        Assembler.complete) (Assembler.new .standard) d a := by
    refine gives_bind.2 ⟨(), changed, gives_bind.2 ⟨(), mid, hword, ?_⟩, hcomplete⟩
    refine gives_bind.2 ⟨(), held, hrecord, gives_bind.2 ⟨(), _, hannounce, ?_⟩⟩
    exact gives_bind.2 ⟨(), changed, gives_modify.2 hchanged.symm, gives_pure.2 ⟨rfl, rfl⟩⟩
  have hdraft : Draft.ofOperations .standard [.emitWord32 3735928559, .record .position 5,
      .announce 9, .overwrite 0 [1].toByteArray] =
        ⟨[1, 190, 173, 222], [⟨4, .position, 5⟩, ⟨4, .position, 9⟩], [], ⟨9, -1, 9, -1⟩⟩ := by
    decide +kernel
  have hends := complete_of_draft _ _ hrun
  rw [hdraft] at hends
  exact ⟨d, a, hrun, hends⟩

end CodeReloc
