import CodeReloc.Code.Basic
import CodeReloc.Proofs.Stream.Moving

set_option autoImplicit false

/-!
# Code replays its descriptor

Code keeps the stream of the descriptor that it was made from, and reads it from its own address.
So its records are those of the descriptor, each of them at its address. An age sequence that is not
young comes behind them, and only when the stream has been read to its end: a reader that meets a
fault in the descriptor meets it at the same record of the code.

Main statement: `walk_placedAt`.
-/

namespace CodeReloc

/-- The walk with its places counted from `base`. -/
def Walk.movedBy (base : UInt64) (w : Walk) : Walk :=
  ⟨w.records.map (Record.movedBy base), w.stopped⟩

/-- The walk with a record behind its last one, if there is one to add and the walk has come to its
end. -/
def Walk.closedBy (last : Option Record) (w : Walk) : Walk :=
  ⟨w.records ++ if w.stopped.isNone then last.toArray else #[], w.stopped⟩

theorem Walk.toTrace_movedBy (base : UInt64) (w : Walk) :
    (w.movedBy base).toTrace = w.toTrace.movedBy base := by
  simp [toTrace, movedBy, Trace.movedBy]

theorem Walk.toTrace_closedBy (last : Option Record) (w : Walk) :
    (w.closedBy last).toTrace = w.toTrace.closedBy last.toList := by
  cases hstopped : w.stopped with
  | none => simp [toTrace, closedBy, Trace.closedBy, hstopped]
  | some fault => simp [toTrace, closedBy, Trace.closedBy, hstopped]

/-- What an age sequence adds to the records of code at `base`: once it is old, one record, if its
mode is wanted. -/
def CodeAge.record (base : UInt64) (mask : Mask) (age : CodeAge) : Option Record :=
  if age.young = false ∧ mask.contains .codeAgeSequence = true then
    some ⟨base + UInt64.ofNat age.offset, .codeAgeSequence, 0⟩
  else
    none

/-- An age sequence is given where it begins inside the instructions. -/
theorem Code.withAge_answers {c : Code} {offset : Nat} {young : Bool} :
    (∃ c', c.withAge offset young = .ok c') ↔ offset < max c.instructions.size 1 := by
  constructor
  · rintro ⟨c', h⟩
    exact of_decide_eq_true (require_bind_eq_ok.1 h).1
  · intro hoffset
    exact ⟨_, require_bind_eq_ok.2 ⟨decide_eq_true hoffset, rfl⟩⟩

namespace Descriptor

/-- The code of the descriptor at an address, with an age sequence or without one. -/
def placedAt (d : Descriptor) (base : UInt64) (age : Option CodeAge) : Except Fault Code := do
  let c ← Code.ofDescriptor d base
  match age with
  | none => return c
  | some age => c.withAge age.offset age.young

/-- A reader of the records of wanted modes. -/
def reader (d : Descriptor) (mask : Mask) : Except Fault Reader := do
  let stream ← d.stream
  Reader.start stream 0 mask none

/-- The last place that the stream leads to. -/
def lastPlace (d : Descriptor) : UInt64 :=
  match d.stream with
  | .ok stream => CodeReloc.lastPlace stream
  | .error _ => 0

variable {d : Descriptor} {base : UInt64} {mask : Mask} {age : Option CodeAge} {c : Code}

theorem instructions_eq_ok {bytes : ByteArray} :
    d.instructions = .ok bytes ↔
      d.instructionSize ≤ d.buffer.size ∧ d.buffer.extract 0 d.instructionSize = bytes := by
  rw [instructions, require_bind_eq_ok, decide_eq_true_eq]
  simp only [pure, Except.pure, Except.ok.injEq]

theorem stream_eq_ok {bytes : ByteArray} :
    d.stream = .ok bytes ↔
      d.streamSize ≤ d.buffer.size ∧
        d.buffer.extract (d.buffer.size - d.streamSize) d.buffer.size = bytes := by
  rw [stream, require_bind_eq_ok, decide_eq_true_eq]
  simp only [pure, Except.pure, Except.ok.injEq]

/-- What the code of a descriptor consists of. -/
theorem placedAt_inv (h : d.placedAt base age = .ok c) :
    c.base = base ∧ d.stream = .ok c.stream ∧ c.age = age := by
  obtain ⟨placed, hplaced, h⟩ := bind_eq_ok.1 h
  obtain ⟨instructions, -, hplaced⟩ := bind_eq_ok.1 hplaced
  obtain ⟨stream, hstream, hplaced⟩ := bind_eq_ok.1 hplaced
  cases hplaced
  cases age with
  | none =>
    cases h
    exact ⟨rfl, hstream, rfl⟩
  | some age =>
    obtain ⟨-, h⟩ := require_bind_eq_ok.1 h
    cases h
    exact ⟨rfl, hstream, rfl⟩

/-- A descriptor whose parts lie inside its buffer can be placed anywhere. Only an age sequence that
does not begin inside the instructions is refused. -/
theorem placedAt_iff (hinstructions : d.instructionSize ≤ d.buffer.size)
    (hstream : d.streamSize ≤ d.buffer.size) :
    (∃ c, d.placedAt base age = .ok c) ↔ ∀ a ∈ age, a.offset < max d.instructionSize 1 := by
  have hsize : (d.buffer.extract 0 d.instructionSize).size = d.instructionSize := by
    rw [ByteArray.size_extract]
    omega
  obtain ⟨bare, hbare, hinside⟩ : ∃ bare, Code.ofDescriptor d base = .ok bare ∧
      bare.instructions.size = d.instructionSize := by
    refine ⟨⟨base, d.buffer.extract 0 d.instructionSize,
      d.buffer.extract (d.buffer.size - d.streamSize) d.buffer.size, d.comments, none⟩, ?_, hsize⟩
    refine bind_eq_ok.2 ⟨_, instructions_eq_ok.2 ⟨hinstructions, rfl⟩, ?_⟩
    exact bind_eq_ok.2 ⟨_, stream_eq_ok.2 ⟨hstream, rfl⟩, rfl⟩
  rw [placedAt, hbare]
  cases age with
  | none =>
    constructor
    · intro _ a ha
      cases ha
    · intro _
      exact ⟨bare, rfl⟩
  | some age =>
    rw [← hinside]
    refine Iff.trans Code.withAge_answers ?_
    simp

end Descriptor

namespace Code

variable {c : Code} {mask : Mask}

/-- The walk of code is that of its stream. -/
theorem walk_eq_walkStream {address : Option UInt64} (h : c.ageAddress = .ok address) :
    c.walk mask = walkStream c.stream c.base mask (if c.isYoung then none else address) := by
  rw [walk, reader, h]
  rfl

/-- The steps of a reader of code are those of its walk. -/
theorem advances_reader (c : Code) (mask : Mask) (n : Nat) :
    (c.reader mask >>= Reader.advances n).map Reader.current = (c.walk mask).at n := by
  rw [walk, reader]
  cases c.ageAddress with
  | error fault => rfl
  | ok address => exact Reader.advances_start c.stream c.base mask _ n

/-- An age sequence that lies at an address is read as its record. -/
theorem closing_age (mask : Mask) (hage : ∀ a ∈ c.age, c.base.toNat + a.offset < 2 ^ 64) :
    ∃ address, c.ageAddress = .ok address ∧
      Reader.closing mask (if c.isYoung then none else address) =
        c.age.bind (CodeAge.record c.base mask) := by
  obtain ⟨base, instructions, stream, comments, age⟩ := c
  cases age with
  | none => exact ⟨none, rfl, Reader.closing_none mask⟩
  | some age =>
    obtain ⟨offset, young⟩ := age
    have hlt : base.toNat + offset < 2 ^ 64 := hage _ rfl
    have hsmall : offset < 2 ^ 64 := by omega
    have hoffset : (UInt64.ofNat offset).toNat = offset := UInt64.toNat_ofNat_of_lt' hsmall
    have haddress : pcAfter base offset = .ok (base + UInt64.ofNat offset) := by
      rw [pcAfter_eq_ok, toNat_add_of_lt (by omega), hoffset]
    refine ⟨some (base + UInt64.ofNat offset), congrArg (Except.map some) haddress, ?_⟩
    cases young with
    | true => simp [isYoung, Reader.closing_none, CodeAge.record]
    | false =>
      cases hmask : mask.contains .codeAgeSequence with
      | true => simp [isYoung, Reader.closing, CodeAge.record, hmask, Record.bare]
      | false => simp [Reader.closing, CodeAge.record, hmask]

end Code

/-- The steps of a reader of a descriptor are those of its walk. -/
theorem Descriptor.advances_reader (d : Descriptor) (mask : Mask) (n : Nat) :
    (d.reader mask >>= Reader.advances n).map Reader.current = (d.walk mask).at n := by
  rw [walk, reader]
  cases d.stream with
  | error fault => rfl
  | ok stream => exact Reader.advances_start stream 0 mask none n

/-- **Code replays its descriptor at its address.** A descriptor whose parts lie inside its buffer
becomes code unless the age sequence does not begin inside the instructions. As long as all places
are addresses, a walk of the code finds the records of the descriptor's walk with the address added
to their places, meets the same fault at the same record, and if there is none, ends with the record
of an old age sequence; a reader that is done stays so. -/
theorem walk_placedAt (d : Descriptor) (base : UInt64) (age : Option CodeAge) (mask : Mask)
    (hinstructions : d.instructionSize ≤ d.buffer.size)
    (hstream : d.streamSize ≤ d.buffer.size)
    (hage : ∀ a ∈ age, base.toNat + a.offset < 2 ^ 64)
    (hplace : base.toNat + d.lastPlace.toNat < 2 ^ 64) (hmask : mask.isEmpty = false) :
    ((∃ c, d.placedAt base age = .ok c) ↔ ∀ a ∈ age, a.offset < max d.instructionSize 1) ∧
      ∀ c, d.placedAt base age = .ok c →
        c.walk mask =
            ((d.walk mask).movedBy base).closedBy (age.bind (CodeAge.record base mask)) ∧
          ∀ n,
            (c.reader mask >>= Reader.advances n).map Reader.current = (c.walk mask).at n ∧
              (d.reader mask >>= Reader.advances n).map Reader.current = (d.walk mask).at n := by
  refine ⟨Descriptor.placedAt_iff hinstructions hstream, ?_⟩
  intro c hc
  obtain ⟨rfl, hread, rfl⟩ := Descriptor.placedAt_inv hc
  obtain ⟨address, haddress, hclosing⟩ := Code.closing_age mask hage
  have hd : d.walk mask = walkStream c.stream 0 mask none := by rw [Descriptor.walk, hread]
  have hlast : d.lastPlace = lastPlace c.stream := by rw [Descriptor.lastPlace, hread]
  rw [hlast] at hplace
  -- both walks read the same bytes, the descriptor's from 0 and the code's from its address
  refine ⟨Walk.toTrace_injective ?_, fun n => ⟨c.advances_reader mask n, d.advances_reader mask n⟩⟩
  rw [Walk.toTrace_closedBy, Walk.toTrace_movedBy, hd, Code.walk_eq_walkStream haddress,
    toTrace_walkStream_movedBy _ hmask hplace, hclosing]

/-- A code target at 4, read from 4096 on. The age sequence at 2 comes behind it, and a reader of the
code is done after two steps. -/
theorem walk_placedAt_old :
    ∃ c, Descriptor.placedAt ⟨⟨#[0, 0, 0, 0, 0, 0, 0, 0, 17]⟩, 8, 1, #[]⟩ 4096 (some ⟨2, false⟩) =
        .ok c ∧
      c.walk .all = ⟨#[⟨4100, .codeTarget, 0⟩, ⟨4098, .codeAgeSequence, 0⟩], none⟩ ∧
        (c.reader .all >>= Reader.advances 2).map Reader.current = .ok none := by
  obtain ⟨haccepted, hwalk⟩ := walk_placedAt ⟨⟨#[0, 0, 0, 0, 0, 0, 0, 0, 17]⟩, 8, 1, #[]⟩ 4096
    (some ⟨2, false⟩) .all (by decide) (by decide)
    (by
      intro a ha
      cases ha
      decide)
    (by decide +kernel) (by decide)
  obtain ⟨c, hc⟩ := haccepted.2 (by
    intro a ha
    cases ha
    decide)
  obtain ⟨hrecords, hsteps⟩ := hwalk c hc
  have hall : c.walk .all = ⟨#[⟨4100, .codeTarget, 0⟩, ⟨4098, .codeAgeSequence, 0⟩], none⟩ :=
    hrecords.trans (by decide +kernel)
  refine ⟨c, hc, hall, ?_⟩
  rw [(hsteps 2).1, hall]
  rfl

end CodeReloc
