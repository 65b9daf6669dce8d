import CodeReloc.Proofs.Assembler.Draft
import CodeReloc.Proofs.Assembler.Effects

set_option autoImplicit false

/-!
# Operations that may be refused

An operation that exceeds the limit leaves the assembler as it then is, and others may follow.
`Operation.attemptAll` tries operations one after the other, whatever they answer, and keeps a list
of the attempts. What one operation keeps is kept by all of them (`attemptAll_induction`), and to
complete an assembler is to perform a few more effects and to cut the buffer up
(`Assembler.complete_eq`).

Once an assembler is stuck without room for a record, it is frozen: whatever is tried, instructions
and stream stay where they are, and it cannot be completed.

Main statements: `Stuck.attemptAll_frozen`, `Stuck.attemptAll_cases` and `Stuck.complete_ends`.
-/

namespace CodeReloc

/-- An operation that was tried: where the instructions ended before, and what it answered. -/
structure Attempt where
  pc : Nat
  operation : Operation
  answer : Except LimitExceeded Unit

namespace Operation

/-- Tries operations one after the other. -/
def attemptAll : List Operation → Assembler → Except Fault (List Attempt × Assembler)
  | [], a => .ok ([], a)
  | operation :: operations, a =>
    operation.run a >>= fun (answer, mid) =>
      attemptAll operations mid >>= fun (attempts, a') =>
        .ok (⟨a.pc, operation, answer⟩ :: attempts, a')

variable {operation : Operation} {operations : List Operation} {a a' : Assembler}
variable {attempts : List Attempt}

theorem attemptAll_cons_eq_ok :
    attemptAll (operation :: operations) a = .ok (attempts, a') ↔
      ∃ answer mid rest, Ends operation.run a answer mid ∧
        attemptAll operations mid = .ok (rest, a') ∧
        attempts = ⟨a.pc, operation, answer⟩ :: rest := by
  constructor
  · intro h
    obtain ⟨⟨answer, mid⟩, hrun, hrest⟩ := bind_eq_ok.1 h
    obtain ⟨⟨rest, last⟩, hattempts, hend⟩ := bind_eq_ok.1 hrest
    cases hend
    exact ⟨answer, mid, rest, hrun, hattempts, rfl⟩
  · rintro ⟨answer, mid, rest, hrun, hattempts, rfl⟩
    exact bind_eq_ok.2 ⟨_, hrun, bind_eq_ok.2 ⟨_, hattempts, rfl⟩⟩

/-- Every operation is tried once. -/
theorem map_operation (h : attemptAll operations a = .ok (attempts, a')) :
    attempts.map Attempt.operation = operations := by
  induction operations generalizing a attempts with
  | nil =>
    cases h
    rfl
  | cons operation operations ih =>
    obtain ⟨answer, mid, rest, -, hrest, rfl⟩ := attemptAll_cons_eq_ok.1 h
    rw [List.map_cons, ih hrest]

/-- **What every attempt keeps is kept by all of them.** -/
theorem attemptAll_induction {P : List Attempt → Assembler → Prop} (before : List Attempt)
    (hstep : ∀ before a operation answer a', operation ∈ operations → P before a →
      Ends operation.run a answer a' → P (before ++ [⟨a.pc, operation, answer⟩]) a')
    (ha : P before a) (h : attemptAll operations a = .ok (attempts, a')) :
    P (before ++ attempts) a' := by
  induction operations generalizing before a attempts with
  | nil =>
    cases h
    rw [List.append_nil]
    exact ha
  | cons operation operations ih =>
    obtain ⟨answer, mid, rest, hrun, hrest, rfl⟩ := attemptAll_cons_eq_ok.1 h
    have hmid := hstep before a operation answer mid List.mem_cons_self ha hrun
    have hlast := ih _ (fun before a operation answer a' hmem =>
      hstep before a operation answer a' (List.mem_cons_of_mem _ hmem)) hmid hrest
    rw [List.append_assoc] at hlast
    exact hlast

end Operation

namespace Assembler

/-! ## The first emission -/

theorem contents_new (options : AssemblerOptions) :
    (Assembler.new options).contents = ⟨options, [], [], .start, #[], .start⟩ := by
  have hstream : (Assembler.new options).contents.stream = [] :=
    (congrArg Prod.fst (Except.ok.inj (Reflects.new options).stream_eq)).symm
  change Contents.mk options [] (Assembler.new options).contents.stream .start #[] .start = _
  rw [hstream]

/-- Bytes are emitted into a new buffer that has room for them. -/
theorem emit_new_of_room (options : AssemblerOptions) {bytes : ByteArray} {n size : Nat}
    (hbytes : bytes.size = n) (hsize : max options.initialSize minimalSize = size)
    (hroom : n + gap ≤ size) :
    ∃ a, Gives (Operation.emit bytes).run (.new options) () a ∧ a.Intact ∧ a.pc = n ∧
      a.buffer.size = size ∧ a.contents = ⟨options, bytesOf bytes, [], .start, #[], .start⟩ := by
  have hnew := (Reflects.new options).intact
  have hbuffer : (Assembler.new options).buffer.size = size := by
    rw [← hsize]
    exact size_copies _ _
  have hfree : (Assembler.new options).HasRoom (bytes.size + gap) := by
    rw [hnew.hasRoom_iff, contents_new, hbuffer, List.length_nil, Nat.zero_add, hbytes]
    exact hroom
  have hinside : (Assembler.new options).HasRoom bytes.size := Nat.le_trans (by omega) hfree
  obtain ⟨-, hfits, hcontents⟩ := appendBytes_gives hnew.toFits hinside
  rw [contents_new] at hcontents
  refine ⟨_, emit_of_room hnew.toFits hfree, ⟨hfits, hnew.sound⟩, ?_, ?_, hcontents⟩
  · rw [← hbytes]
    exact Nat.zero_add _
  · rw [← hbuffer]
    exact size_overlay (Nat.le_trans hinside hnew.pos_le)

/-- Bytes are emitted into a new buffer that cannot become larger. -/
theorem emit_new (options : AssemblerOptions) {bytes : ByteArray} {n size : Nat}
    (hbytes : bytes.size = n) (hsize : max options.initialSize minimalSize = size)
    (hroom : n + gap ≤ size) (hfull : ¬ CanGrow options.maxSize size) :
    ∃ a, Gives (Operation.emit bytes).run (.new options) () a ∧ a.Intact ∧ a.Full ∧ a.pc = n ∧
      a.buffer.size = size ∧ a.contents = ⟨options, bytesOf bytes, [], .start, #[], .start⟩ := by
  obtain ⟨a, hemit, hintact, hpc, hbuffer, hcontents⟩ :=
    emit_new_of_room options hbytes hsize hroom
  have hoptions : a.options = options := congrArg Contents.options hcontents
  refine ⟨a, hemit, hintact, ?_, hpc, hbuffer, hcontents⟩
  rw [Full, hoptions, hbuffer]
  exact hfull

/-! ## Completing -/

/-- The effects of completing: missing positions are recorded, and the gap is kept. -/
def lastEffects (a : Assembler) : List Effect := Operation.writePositions.effects a ++ [.keepGap]

/-- Finishes the stream and cuts the buffer up. -/
def cut : Assembly Descriptor := do
  finishStream
  let a ← get
  let streamSize ← a.streamSize
  return ⟨a.buffer, a.pc, streamSize, a.comments⟩

/-- Once what is held back has been written, the descriptor is taken from the ends of the buffer. -/
theorem cut_of_finish {a : Assembler} {w : Writer} {buffer : ByteArray}
    (h : a.writer.finish a.buffer = .ok (w, buffer))
    (hfits : Fits { a with buffer := buffer, writer := w }) :
    Gives cut a ⟨buffer, a.pc, buffer.size - w.pos, a.comments⟩
      { a with buffer := buffer, writer := w } := by
  refine gives_bind.2 ⟨(), _, bind_eq_ok.2 ⟨_, h, rfl⟩, ?_⟩
  refine gives_bind.2 ⟨_, _, gives_get.2 ⟨rfl, rfl⟩, ?_⟩
  exact gives_bind.2 ⟨_, _, gives_lift.2 ⟨hfits.streamSize_eq, rfl⟩, gives_pure.2 ⟨rfl, rfl⟩⟩

/-- To complete an assembler is to perform the last effects and to cut the buffer up. -/
theorem complete_eq (a : Assembler) :
    complete a = (do performAll a.lastEffects; cut : Assembly Descriptor) a := by
  have hcomplete : complete = (do discard writePositions; keepGap; cut) := by
    rw [discard_eq, bind_assoc]
    rfl
  rw [hcomplete, lastEffects, performAll_append, performAll_singleton, bind_assoc,
    Computation.bind_apply, Computation.bind_apply, discard_writePositions_eq]
  rfl

/-! ## Frozen assemblers -/

/-- Instructions and stream have stayed where they were. -/
structure Frozen (a a' : Assembler) : Prop where
  options_eq : a'.options = a.options
  size_eq : a'.buffer.size = a.buffer.size
  pc_eq : a'.pc = a.pc
  writer_eq : a'.writer = a.writer
  stream_eq : a'.contents.stream = a.contents.stream

variable {a a' : Assembler} {x : Effect} {xs : List Effect} {answer : Except LimitExceeded Unit}

namespace Frozen

theorem refl (a : Assembler) : Frozen a a := ⟨rfl, rfl, rfl, rfl, rfl⟩

theorem trans {b c : Assembler} (h : Frozen a b) (h' : Frozen b c) : Frozen a c where
  options_eq := h'.options_eq.trans h.options_eq
  size_eq := h'.size_eq.trans h.size_eq
  pc_eq := h'.pc_eq.trans h.pc_eq
  writer_eq := h'.writer_eq.trans h.writer_eq
  stream_eq := h'.stream_eq.trans h.stream_eq

/-- Laying bytes over instructions does not move anything. -/
theorem overwrite (ha : a.Fits) (offset : Nat) (bytes : ByteArray) :
    Frozen a (overwrite offset bytes a) where
  options_eq := by rw [Assembler.overwrite]
  size_eq := size_overwrite ha offset bytes
  pc_eq := overwrite_pc a offset bytes
  writer_eq := overwrite_writer a offset bytes
  stream_eq := by
    rw [(overwrite_contents ha offset bytes).2]
    rfl

theorem intact (h : Frozen a a') (ha : a.Intact) : a'.Intact := by
  refine ⟨⟨?_, ?_⟩, ?_⟩
  · rw [h.pc_eq, h.writer_eq]
    exact ha.pc_le
  · rw [h.size_eq, h.writer_eq]
    exact ha.pos_le
  · rw [h.writer_eq]
    exact ha.sound

theorem stuck (h : Frozen a a') {n : Nat} (ha : a.Stuck n) : a'.Stuck n := by
  constructor
  · rw [Full, h.options_eq, h.size_eq]
    exact ha.full
  · rw [HasRoom, h.pc_eq, h.writer_eq]
    exact ha.tight

end Frozen

namespace Stuck

/-- Where the buffer is stuck, asking for as much room is refused and changes nothing. -/
theorem makeRoom_ends {m n : Nat} (h : a.Stuck m) (ha : a.Fits) (hle : m ≤ n) :
    ∃ e, Ends (makeRoom n) a (.error e) a := by
  have hsmall : ¬ a.pc + (m + gap) ≤ a.writer.pos := h.tight
  have hpc := ha.pc_le
  have hpos := ha.pos_le
  have hmake := makeRoom_eq ha n
  rw [if_pos (by omega)] at hmake
  rcases hgrown : grownSize a.options.maxSize (a.pc + (a.buffer.size - a.writer.pos) + n + gap)
    a.buffer.size with ⟨size, exceeded⟩
  obtain ⟨-, hfull, -⟩ := grownSize_inv hgrown
  cases exceeded with
  | none =>
    -- the size that was reached would have been large enough
    have hlarge := needed_le_grownSize (congrArg Prod.snd hgrown)
    rw [hgrown, hfull h.full] at hlarge
    have hneeded : a.pc + (a.buffer.size - a.writer.pos) + n + gap ≤ a.buffer.size := hlarge
    omega
  | some e =>
    rw [hgrown] at hmake
    dsimp only at hmake
    rw [if_neg (not_not_intro (hfull h.full))] at hmake
    exact ⟨e, hmake⟩

/-- An effect that asks for room is refused, and any other one is performed. -/
theorem perform_ends (h : a.Stuck 0) (ha : a.Fits) (x : Effect) :
    (x.need = none ∧ ∃ a', Gives x.perform a () a' ∧ Frozen a a') ∨
      ∃ e, Ends x.perform a (.error e) a := by
  cases x with
  | keepGap => exact Or.inr (h.makeRoom_ends ha (Nat.zero_le 0))
  | emit bytes =>
    obtain ⟨e, hmake⟩ := h.makeRoom_ends ha (Nat.zero_le bytes.size)
    exact Or.inr ⟨e, ends_bind.2 (Or.inr ⟨e, hmake, rfl⟩)⟩
  | record mode data =>
    obtain ⟨e, hmake⟩ := h.makeRoom_ends ha (Nat.zero_le 0)
    exact Or.inr ⟨e, ends_bind.2 (Or.inr ⟨e, hmake, rfl⟩)⟩
  | addComment text => exact Or.inl ⟨rfl, _, gives_modify.2 rfl, ⟨rfl, rfl, rfl, rfl, rfl⟩⟩
  | setPositions positions =>
    exact Or.inl ⟨rfl, _, gives_modify.2 rfl, ⟨rfl, rfl, rfl, rfl, rfl⟩⟩
  | overwrite offset bytes => exact Or.inl ⟨rfl, _, gives_modify.2 rfl, .overwrite ha offset bytes⟩

/-- Effects freeze it, and are refused if any of them asks for room. -/
theorem performAll_reaches (h : a.Stuck 0) (ha : a.Intact) (xs : List Effect) :
    Reaches (performAll xs) a fun answer a' =>
      Frozen a a' ∧ ((∃ x ∈ xs, x.need ≠ none) → ∃ e, answer = .error e) := by
  induction xs generalizing a with
  | nil =>
    refine ⟨.ok (), a, rfl, .refl a, ?_⟩
    rintro ⟨x, hx, -⟩
    cases hx
  | cons x xs ih =>
    rcases h.perform_ends ha.toFits x with ⟨hneed, mid, hperform, hmid⟩ | ⟨e, hperform⟩
    · obtain ⟨answer, a', hrest, hfrozen, hrefused⟩ := ih (hmid.stuck h) (hmid.intact ha)
      refine ⟨answer, a', ends_bind.2 (Or.inl ⟨(), mid, hperform, hrest⟩), hmid.trans hfrozen, ?_⟩
      rintro ⟨y, hy, hasks⟩
      rcases List.mem_cons.1 hy with rfl | hy
      · exact absurd hneed hasks
      · exact hrefused ⟨y, hy, hasks⟩
    · exact ⟨.error e, a, ends_bind.2 (Or.inr ⟨e, hperform, rfl⟩), .refl a, fun _ => ⟨e, rfl⟩⟩

theorem run_frozen (h : a.Stuck 0) (ha : a.Intact) {operation : Operation}
    (hrun : Ends operation.run a answer a') : Frozen a a' := by
  rw [Ends, operation.run_eq] at hrun
  obtain ⟨_, -, hperform⟩ := bind_eq_ok.1 hrun
  exact ((h.performAll_reaches ha _).of_ends hperform).1

/-- An operation that asks for room is refused. -/
theorem run_ends (h : a.Stuck 0) (ha : a.Intact) (operation : Operation)
    (hcontract : operation.contract = .ok ())
    (hneed : ∃ x ∈ operation.effects a, x.need ≠ none) :
    ∃ e a', Ends operation.run a (.error e) a' := by
  obtain ⟨answer, a', hends, -, hrefused⟩ := h.performAll_reaches ha (operation.effects a)
  obtain ⟨e, rfl⟩ := hrefused hneed
  exact ⟨e, a', Operation.ends_of_effects hcontract hends⟩

/-- **Whatever is tried, instructions and stream stay where they are.** -/
theorem attemptAll_frozen (h : a.Stuck 0) (ha : a.Intact) {operations : List Operation}
    {attempts : List Attempt} (hrun : Operation.attemptAll operations a = .ok (attempts, a')) :
    Frozen a a' := by
  refine Operation.attemptAll_induction (P := fun _ mid => Frozen a mid) [] ?_ (.refl a) hrun
  intro _ mid operation answer a' _ hmid hends
  exact hmid.trans ((hmid.stuck h).run_frozen (hmid.intact ha) hends)

/-- What every attempt keeps is kept by all of them, **unless the assembler gets stuck**. -/
theorem attemptAll_cases {P : List Attempt → Assembler → Prop} {options : AssemblerOptions}
    {operations : List Operation} {attempts : List Attempt}
    (hstep : ∀ before a operation answer a', operation ∈ operations → a.Intact → P before a →
      Ends operation.run a answer a' →
        a'.Stuck 0 ∨ P (before ++ [⟨a.pc, operation, answer⟩]) a')
    (hnew : P [] (.new options))
    (h : Operation.attemptAll operations (.new options) = .ok (attempts, a)) :
    a.Intact ∧ (a.Stuck 0 ∨ P attempts a) := by
  refine Operation.attemptAll_induction
    (P := fun before mid => mid.Intact ∧ (mid.Stuck 0 ∨ P before mid)) [] ?_
    ⟨(Reflects.new options).intact, Or.inr hnew⟩ h
  rintro before mid operation answer a' hmem ⟨hintact, hstuck | hmid⟩ hrun
  · -- being stuck is for good
    have hfrozen := hstuck.run_frozen hintact hrun
    exact ⟨hfrozen.intact hintact, Or.inl (hfrozen.stuck hstuck)⟩
  · exact ⟨Operation.intact_of_run hintact hrun, hstep _ _ _ _ _ hmem hintact hmid hrun⟩

/-- **What is stuck cannot be completed.** -/
theorem complete_ends (h : a.Stuck 0) (ha : a.Intact) :
    ∃ e a', Ends complete a (.error e) a' := by
  obtain ⟨answer, a', hlast, -, hrefused⟩ := h.performAll_reaches ha a.lastEffects
  obtain ⟨e, rfl⟩ := hrefused ⟨.keepGap, List.mem_append_right _ List.mem_cons_self, by decide⟩
  refine ⟨e, a', ?_⟩
  rw [Ends, complete_eq]
  exact ends_bind.2 (Or.inr ⟨e, hlast, rfl⟩)

/-- So what has been completed was not stuck. -/
theorem not_complete (h : a.Stuck 0) (ha : a.Intact) {d : Descriptor}
    (hcomplete : Gives complete a d a') : False := by
  obtain ⟨e, _, hends⟩ := h.complete_ends ha
  cases hcomplete.symm.trans hends

end Stuck

end Assembler

end CodeReloc
