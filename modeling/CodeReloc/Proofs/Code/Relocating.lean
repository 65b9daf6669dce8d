import CodeReloc.Proofs.Code.Placing
import CodeReloc.Proofs.Stream.Contract
import CodeReloc.Proofs.Stream.RoundTrip

set_option autoImplicit false

/-!
# Whether code has to be adjusted

A descriptor is asked whether anything in it has to be looked at once it is placed, and code whether
anything has to be adjusted when it moves. Both questions are answered without a list: a reader of
the modes in question is done at once, or it is not. The two sets of modes are put together from
different parts, but they are one set (`Descriptor.movable_eq`): the nine modes of
`Mode.isMovable` and the age sequence, which no stream that is encoded holds and which code reports
only once it is old.

Positions are not among these modes, so it makes no difference that some of them are replaced
(`mem_kept_of_ne`): the answers are those of the list that was written.

Main statement: `needsRelocation_eq`.
-/

namespace CodeReloc

/-! ## The modes in question -/

/-- A record of the mode says what lies elsewhere, so that it has to be adjusted when code is put at
another place. -/
def Mode.isMovable : Mode → Bool
  | codeTarget | codeTargetWithId | constructCall | debuggerStatement | embeddedObject | cell
  | runtimeEntry | internalReference | internalReferenceEncoded => true
  | _ => false

theorem Descriptor.movable_eq : Descriptor.movable = Code.movable := by decide

theorem Code.contains_movable (mode : Mode) :
    Code.movable.contains mode = (mode.isMovable || mode == .codeAgeSequence) := by
  cases mode <;> decide

/-! ## Encoded records -/

/-- No list with an age sequence is encoded. -/
theorem mode_ne_codeAgeSequence_of_encode {records : List Record} {stream : ByteArray}
    (h : encode records = .ok stream) : ∀ r ∈ records, r.mode ≠ .codeAgeSequence := by
  intro r hr hmode
  obtain ⟨before, after, rfl⟩ := List.append_of_mem hr
  have hbreaks : r.Breaks (placeAfter before) (.unencodable r.mode) :=
    .unencodable (by simp [hmode])
  exact encode_ne_ok_of_broken ⟨before, r, after, rfl, hbreaks⟩ stream h

/-- Where positions are not looked for, replacing some of them makes no difference. -/
theorem any_wants_kept {mask : Mask} (hmask : mask.contains .position = false)
    (calls : List Call) : (kept calls).any mask.wants = (written calls).any mask.wants := by
  rw [Bool.eq_iff_iff, List.any_eq_true, List.any_eq_true]
  constructor
  · rintro ⟨r, hr, hwanted⟩
    exact ⟨r, mem_of_mem_kept hr, hwanted⟩
  · rintro ⟨r, hr, hwanted⟩
    -- a record that is replaced would be a position, and those are not wanted
    refine ⟨r, mem_kept_of_ne hr ?_, hwanted⟩
    intro hmode
    rw [Mask.wants, hmode, hmask] at hwanted
    cases hwanted

/-- A reader with a mask finds what is kept of the records of an encoded list, less those of other
modes, and then the record of an age sequence. -/
theorem toTrace_walkStream_of_encode {records : List Record} {stream : ByteArray}
    {start : UInt64} {mask : Mask} (h : encode records = .ok stream)
    (hstart : ∀ r ∈ records.getLast?, start.toNat + r.pc.toNat < 2 ^ 64)
    (hmask : mask.isEmpty = false) (age : Option UInt64) :
    (walkStream stream start mask age).toTrace =
      ⟨((kept (records.map .write)).map (Record.readBack start)).filter mask.wants ++
        (Reader.closing mask age).toList, none⟩ := by
  obtain ⟨bytes, e', hbytes, hstream⟩ := encode_eq_ok.1 h
  rw [← written_map_write records] at hstart
  have hall : (walkStream stream start .all none).toTrace =
      ⟨(kept (records.map .write)).map (Record.readBack start), none⟩ :=
    congrArg Walk.toTrace (walkStream_of_bytes hbytes hstart hstream)
  rw [toTrace_walkStream stream start (by decide)] at hall
  rw [toTrace_walkStream_age stream start age hmask, Cursor.trace_mask, hall]
  rfl

/-! ## Readers that are done at once -/

/-- A reader of a stream that can be read is done at once exactly when its walk finds nothing. -/
theorem Reader.start_done {stream : ByteArray} {pc : UInt64} {mask : Mask} {age : Option UInt64}
    {records : List Record}
    (h : (walkStream stream pc mask age).toTrace = ⟨records, none⟩) :
    ∃ r, Reader.start stream pc mask age = .ok r ∧ (r.done = true ↔ records = []) := by
  rw [walkStream] at h
  cases hstart : Reader.start stream pc mask age with
  | error fault =>
    -- the walk would have ended in this fault
    rw [hstart] at h
    cases congrArg Trace.stopped h
  | ok r =>
    rw [hstart] at h
    have htrace : r.trace = ⟨records, none⟩ := r.toTrace_walk.symm.trans h
    refine ⟨r, rfl, ?_⟩
    rw [done, Option.isNone_iff_eq_none]
    cases hcurrent : r.current with
    | none =>
      rw [trace, hcurrent] at htrace
      cases htrace
      exact ⟨fun _ => rfl, fun _ => rfl⟩
    | some record =>
      rw [trace_of_current hcurrent] at htrace
      have hrecords : record :: r.ahead.records = records := congrArg Trace.records htrace
      rw [← hrecords]
      constructor
      · intro hdone
        cases hdone
      · intro hempty
        cases hempty

/-- A reader of an encoded list is done at once exactly when no record of the list is wanted and no
age sequence is to be reported. -/
theorem start_done_of_encode {records : List Record} {stream : ByteArray} {start : UInt64}
    {mask : Mask} (h : encode records = .ok stream)
    (hstart : ∀ r ∈ records.getLast?, start.toNat + r.pc.toNat < 2 ^ 64)
    (hmask : mask.isEmpty = false) (hposition : mask.contains .position = false)
    (age : Option UInt64) :
    ∃ r, Reader.start stream start mask age = .ok r ∧
      (!r.done) = (records.any mask.wants || (Reader.closing mask age).isSome) := by
  obtain ⟨r, hr, hdone⟩ := Reader.start_done (toTrace_walkStream_of_encode h hstart hmask age)
  refine ⟨r, hr, ?_⟩
  have hsame := any_wants_kept hposition (records.map .write)
  rw [written_map_write] at hsame
  -- a record that is read back has the mode that was written
  have hread : ((kept (records.map .write)).map (Record.readBack start)).any mask.wants =
      (kept (records.map .write)).any mask.wants := List.any_map
  have hnothing : r.done = true ↔
      (records.any mask.wants || (Reader.closing mask age).isSome) = false := by
    rw [hdone, ← hsame, ← hread, Bool.or_eq_false_iff, List.append_eq_nil_iff,
      List.filter_eq_nil_iff, List.any_eq_false, Option.toList_eq_nil_iff,
      Option.isSome_eq_false_iff, Option.isNone_iff_eq_none]
  rw [Bool.not_eq_eq_eq_not, Bool.eq_iff_iff, hnothing, Bool.not_eq_true']

/-! ## The two questions -/

/-- Of the records of an encoded list, those that are looked for are those that have to be
adjusted. -/
theorem any_wants_movable {records : List Record} {stream : ByteArray}
    (h : encode records = .ok stream) :
    records.any Code.movable.wants = records.any fun r => r.mode.isMovable := by
  rw [Bool.eq_iff_iff, List.any_eq_true, List.any_eq_true]
  refine exists_congr fun r => and_congr_right fun hr => ?_
  have hage := mode_ne_codeAgeSequence_of_encode h r hr
  rw [Mask.wants, Code.contains_movable, Bool.or_eq_true, beq_iff_eq, or_iff_left hage]

/-- An age sequence begins inside the instructions, so it lies at an address wherever they do. -/
theorem Descriptor.age_lt_of_placedAt {d : Descriptor} {base : UInt64} {age : Option CodeAge}
    {c : Code} (h : d.placedAt base age = .ok c)
    (hplace : base.toNat + d.instructionSize ≤ 2 ^ 64) :
    ∀ a ∈ age, base.toNat + a.offset < 2 ^ 64 := by
  rintro a rfl
  obtain ⟨bare, hbare, hage⟩ := bind_eq_ok.1 h
  obtain ⟨instructions, hinstructions, hbare⟩ := bind_eq_ok.1 hbare
  obtain ⟨stream, -, hbare⟩ := bind_eq_ok.1 hbare
  cases hbare
  obtain ⟨hinside, -⟩ := require_bind_eq_ok.1 hage
  obtain ⟨-, rfl⟩ := instructions_eq_ok.1 hinstructions
  rw [decide_eq_true_eq, ByteArray.size_extract] at hinside
  have hbase := base.toNat_lt
  omega

/-- An age sequence is reported where it lies at an address and is old. -/
theorem Code.isSome_closing_movable {c : Code}
    (hage : ∀ a ∈ c.age, c.base.toNat + a.offset < 2 ^ 64) :
    ∃ address, c.ageAddress = .ok address ∧
      (Reader.closing Code.movable (if c.isYoung then none else address)).isSome = !c.isYoung := by
  obtain ⟨address, haddress, hclosing⟩ := Code.closing_age Code.movable hage
  refine ⟨address, haddress, ?_⟩
  have hwanted : Code.movable.contains .codeAgeSequence = true := by decide
  rw [hclosing, Code.isYoung]
  cases c.age with
  | none => rfl
  | some age => cases hyoung : age.young <;> simp [CodeAge.record, hyoung, hwanted]

/-- **Both questions are about the list that was written.** A descriptor with the stream of an
encoded list has to be looked at exactly when the list has a record that has to be adjusted. Code
of the descriptor has to be adjusted in the same case, and whenever it is old. Its last record has
to lie at an address, and so has its age sequence, which does wherever the instructions do
(`Descriptor.age_lt_of_placedAt`). -/
theorem needsRelocation_eq {records : List Record} {stream : ByteArray} {d : Descriptor}
    (h : encode records = .ok stream) (hd : d.stream = .ok stream) :
    d.needsRelocation = .ok (records.any fun r => r.mode.isMovable) ∧
      ∀ base age c, d.placedAt base age = .ok c →
        (∀ r ∈ records.getLast?, base.toNat + r.pc.toNat < 2 ^ 64) →
        (∀ a ∈ age, base.toNat + a.offset < 2 ^ 64) →
        c.needsRelocation = .ok ((records.any fun r => r.mode.isMovable) || !c.isYoung) := by
  have hmask : Code.movable.isEmpty = false := by decide
  have hposition : Code.movable.contains .position = false := by decide
  constructor
  · obtain ⟨r, hr, hdone⟩ :=
      start_done_of_encode h (fun r _ => r.pc_in_range) hmask hposition none
    rw [Reader.closing_none, Option.isSome_none, Bool.or_false, any_wants_movable h] at hdone
    rw [← hdone, Descriptor.needsRelocation, Descriptor.movable_eq]
    exact bind_eq_ok.2 ⟨stream, hd, bind_eq_ok.2 ⟨r, hr, rfl⟩⟩
  · -- the code has the bytes of the descriptor and reads them from its own address
    intro base age c hc hstart hage
    obtain ⟨rfl, hstream, rfl⟩ := Descriptor.placedAt_inv hc
    cases hd.symm.trans hstream
    obtain ⟨address, haddress, hold⟩ := Code.isSome_closing_movable hage
    obtain ⟨r, hr, hdone⟩ := start_done_of_encode h hstart hmask hposition
      (if c.isYoung then none else address)
    rw [hold, any_wants_movable h] at hdone
    rw [← hdone, Code.needsRelocation]
    exact bind_eq_ok.2 ⟨r, bind_eq_ok.2 ⟨address, haddress, hr⟩, rfl⟩

/-- A position, one that replaces it, and a reason: nothing that has to be adjusted. Only the age
sequence of the code, once it is old, has to be. -/
theorem needsRelocation_eq_old :
    encode [⟨2, .position, 5⟩, ⟨2, .position, 6⟩, ⟨3, .deoptReason, 9⟩] =
        .ok ⟨#[39, 6, 25, 10]⟩ ∧
      Descriptor.needsRelocation ⟨⟨#[0, 0, 0, 0, 0, 39, 6, 25, 10]⟩, 4, 4, #[]⟩ = .ok false ∧
      ∀ young, ∃ c,
        Descriptor.placedAt ⟨⟨#[0, 0, 0, 0, 0, 39, 6, 25, 10]⟩, 4, 4, #[]⟩ 4096 (some ⟨1, young⟩) =
            .ok c ∧
          c.needsRelocation = .ok !young := by
  have hencode : encode [⟨2, .position, 5⟩, ⟨2, .position, 6⟩, ⟨3, .deoptReason, 9⟩] =
      .ok ⟨#[39, 6, 25, 10]⟩ := by
    decide +kernel
  have hstream : Descriptor.stream ⟨⟨#[0, 0, 0, 0, 0, 39, 6, 25, 10]⟩, 4, 4, #[]⟩ =
      .ok ⟨#[39, 6, 25, 10]⟩ := by
    decide +kernel
  obtain ⟨hdescriptor, hcode⟩ := needsRelocation_eq hencode hstream
  refine ⟨hencode, hdescriptor, fun young => ?_⟩
  have hplaced : ∃ c, Descriptor.placedAt ⟨⟨#[0, 0, 0, 0, 0, 39, 6, 25, 10]⟩, 4, 4, #[]⟩ 4096
      (some ⟨1, young⟩) = .ok c := by
    refine (Descriptor.placedAt_iff (by decide) (by decide)).2 fun a ha => ?_
    cases ha
    decide +revert
  obtain ⟨c, hc⟩ := hplaced
  obtain ⟨-, -, hyoung⟩ := Descriptor.placedAt_inv hc
  refine ⟨c, hc, ?_⟩
  have hrange := Descriptor.age_lt_of_placedAt hc (by decide)
  rw [hcode 4096 _ c hc (by decide) hrange, Code.isYoung, hyoung]
  rfl

end CodeReloc
