import Mathlib.Data.List.Forall2
import CodeReloc.Proofs.Assembler.Exhaustion

set_option autoImplicit false

/-!
# References outside the code

An external reference is recorded first and emitted then. The record asks for the gap, and the
pointer for eight bytes beside it, so the pointer may be refused when the record is already in the
stream. A completed descriptor has one record for every request, in order (`Points`): a request that
was answered has its pointer at the place of the record, and one that was refused has a record that
dangles, with less than a pointer of instructions behind it.

Main statement: `attemptAll_references`.
-/

namespace CodeReloc

open Assembler

/-- It asks for a reference outside the code. -/
def Operation.isReference : Operation → Bool
  | externalReference _ => true
  | _ => false

/-- The bytes of a pointer. -/
def wordBytes (address : UInt64) : List UInt8 := leBytes 8 address.toNat

/-- **A record of a completed descriptor stands for a request.** -/
inductive Points (code : List UInt8) : Record → Attempt → Prop where
  /-- The pointer lies at the place of the record. -/
  | answered {pc : Nat} {address : UInt64} (hinside : pc + 8 ≤ code.length)
      (hword : (code.drop pc).take 8 = wordBytes address) :
      Points code ⟨UInt64.ofNat pc, .externalReference, 0⟩
        ⟨pc, .externalReference address, .ok ()⟩
  /-- There is no room for a pointer at the place of the record. -/
  | dangling {pc : Nat} {address : UInt64} {e : LimitExceeded} (hbeyond : code.length < pc + 8) :
      Points code ⟨UInt64.ofNat pc, .externalReference, 0⟩
        ⟨pc, .externalReference address, .error e⟩

/-- A record of an assembler stands for a request. After a refusal the buffer cannot become larger,
and a pointer will never fit in at the place of the record. -/
inductive Marks (a : Assembler) : Record → Attempt → Prop where
  | answered {pc : Nat} {address : UInt64} (hinside : pc + 8 ≤ a.contents.code.length)
      (hword : (a.contents.code.drop pc).take 8 = wordBytes address) :
      Marks a ⟨UInt64.ofNat pc, .externalReference, 0⟩ ⟨pc, .externalReference address, .ok ()⟩
  | refused {pc : Nat} {address : UInt64} {e : LimitExceeded} (hfull : a.Full)
      (htight : a.buffer.size < pc + a.contents.stream.length + (8 + gap)) :
      Marks a ⟨UInt64.ofNat pc, .externalReference, 0⟩
        ⟨pc, .externalReference address, .error e⟩

namespace Marks

variable {a a' : Assembler} {r : Record} {attempt : Attempt} {xs : List Effect}

/-- A record goes on to stand for its request. -/
theorem carries (h : Marks a r attempt) (hxs : ∀ x ∈ xs, x.isOverwrite = false)
    (ha : Carries a xs a') : Marks a' r attempt := by
  cases h with
  | answered hinside hword =>
    have hcode := Contents.code_afterAll hxs ha.after_eq
    refine .answered ?_ ?_
    · rw [hcode, List.length_append]
      exact Nat.le_add_right_of_le hinside
    · rw [hcode, List.drop_append_of_le_length (by omega),
        List.take_append_of_le_length (by rw [List.length_drop]; omega)]
      exact hword
  | refused hfull htight =>
    have hstream := (Contents.length_afterAll ha.after_eq).2
    refine .refused (ha.grown.full_of_full hfull) ?_
    rw [ha.grown.full hfull]
    omega

/-- Where the gap is free and the buffer is cut up, it is known what the place of a record holds. -/
theorem points (h : Marks a r attempt) (ha : a.Fits) (hroom : a.HasRoom gap) :
    Points a.contents.code r attempt := by
  cases h with
  | answered hinside hword => exact .answered hinside hword
  | refused hfull htight =>
    rw [ha.hasRoom_iff] at hroom
    exact .dangling (by omega)

end Marks

/-- The references of an assembler stand for the requests so far, one by one. -/
def Referenced (attempts : List Attempt) (a : Assembler) : Prop :=
  ∃ records, a.contents.Holds records ∧
    List.Forall₂ (Marks a) (records.filter (·.mode == .externalReference))
      (attempts.filter (·.operation.isReference))

namespace Referenced

variable {a a' : Assembler} {attempts : List Attempt} {xs : List Effect}

theorem new (options : AssemblerOptions) : Referenced [] (.new options) :=
  ⟨[], (Reflects.new options).stream_eq, .nil⟩

/-- Effects that record no reference. -/
theorem of_carries (ha : Referenced attempts a) (hxs : ∀ x ∈ xs, x.isOverwrite = false)
    (hrecord : ∀ data, .record .externalReference data ∉ xs) (h : Carries a xs a') :
    Referenced attempts a' := by
  obtain ⟨records, hholds, hmarks⟩ := ha
  refine ⟨_, hholds.afterAll h.after_eq, ?_⟩
  rw [List.filter_append, filter_recordsOf hrecord, List.append_nil]
  exact hmarks.imp fun r attempt hmark => hmark.carries hxs h

/-- Effects that record one reference, which stands for one more request. -/
theorem record (ha : Referenced attempts a) (hxs : ∀ x ∈ xs, x.isOverwrite = false)
    {attempt : Attempt} (hreference : attempt.operation.isReference = true) {r : Record}
    (hmode : r.mode = .externalReference) (hrecords : recordsOf a.contents.code.length xs = [r])
    (h : Carries a xs a') (hmark : Marks a' r attempt) :
    Referenced (attempts ++ [attempt]) a' := by
  obtain ⟨records, hholds, hmarks⟩ := ha
  refine ⟨_, hholds.afterAll h.after_eq, ?_⟩
  have hrecord : [r].filter (·.mode == .externalReference) = [r] :=
    List.filter_cons_of_pos (beq_iff_eq.2 hmode)
  have hattempt : [attempt].filter (·.operation.isReference) = [attempt] :=
    List.filter_cons_of_pos hreference
  rw [hrecords, List.filter_append, List.filter_append, hrecord, hattempt]
  exact List.rel_append (hmarks.imp fun r attempt hmark => hmark.carries hxs h)
    (.cons hmark .nil)

/-- A request for a reference. Where only the gap is free, its record stays behind. -/
theorem externalReference (ha : a.Intact) (h : Referenced attempts a) {address : UInt64}
    {answer : Except LimitExceeded Unit}
    (houtcome : Outcome a ((Operation.externalReference address).effects a) answer a') :
    a'.Stuck 0 ∨ Referenced (attempts ++ [⟨a.pc, .externalReference address, answer⟩]) a' := by
  have heffects : (Operation.externalReference address).effects a =
      [.record .externalReference 0, .emit (wordBytes address).toByteArray] := rfl
  have hpc := ha.length_code
  have hlength : (wordBytes address).length = 8 := length_leBytes 8 _
  rw [heffects] at houtcome
  cases houtcome with
  | done hcarries =>
    right
    have hxs : ∀ x ∈ [Effect.record .externalReference 0, .emit (wordBytes address).toByteArray],
        x.isOverwrite = false := by
      simp [Effect.isOverwrite]
    have hcode : a'.contents.code = a.contents.code ++ wordBytes address := by
      rw [Contents.code_afterAll hxs hcarries.after_eq]
      simp [Effect.emitted]
    refine h.record hxs rfl rfl rfl hcarries ?_
    rw [hpc]
    have hend : a'.contents.code.length = a.pc + 8 := by
      rw [hcode, List.length_append, hpc, hlength]
    refine .answered (Nat.le_of_eq hend.symm) ?_
    rw [hcode, List.drop_left' hpc, ← hlength, List.take_length]
  | @refused done rest x n e a' hsplit hcarries hneed hstuck =>
    cases done with
    | nil =>
      -- not even the record was written
      obtain ⟨rfl, -⟩ := List.cons.inj hsplit
      cases hneed
      exact Or.inl hstuck
    | cons y done =>
      right
      obtain ⟨rfl, hsplit'⟩ := List.cons.inj hsplit
      cases done with
      | cons z done => simp at hsplit'
      | nil =>
        -- the record was written and the pointer was not
        obtain ⟨rfl, -⟩ := List.cons.inj hsplit'
        have hxs : ∀ x ∈ [Effect.record .externalReference 0], x.isOverwrite = false := by
          simp [Effect.isOverwrite]
        have hcode := hcarries.code_eq fun x hx => by
          rw [List.mem_singleton.1 hx]
          exact ⟨rfl, rfl⟩
        have hn : n = 8 := by
          rw [← hlength, ← bytesOf_toByteArray (wordBytes address), length_bytesOf]
          exact (Option.some.inj hneed).symm
        have htight := hstuck.tight
        rw [hcarries.intact.hasRoom_iff, hcode, hpc, hn] at htight
        refine h.record hxs rfl rfl rfl hcarries ?_
        rw [hpc]
        exact .refused hstuck.full (by omega)

/-- **Whatever an operation ends in, the references stand for the requests**, or else the assembler
is stuck. -/
theorem run (ha : a.Intact) (h : Referenced attempts a) {operation : Operation}
    {answer : Except LimitExceeded Unit} (hoverwrite : operation.isOverwrite = false)
    (hrecord : ∀ data, operation ≠ .record .externalReference data)
    (hrun : Ends operation.run a answer a') :
    a'.Stuck 0 ∨ Referenced (attempts ++ [⟨a.pc, operation, answer⟩]) a' := by
  obtain ⟨hcontract, houtcome⟩ := Operation.run_outcome ha hrun
  by_cases hreference : ∃ address, operation = .externalReference address
  · obtain ⟨address, rfl⟩ := hreference
    exact h.externalReference ha houtcome
  · right
    obtain ⟨done, hdone, hcarries⟩ := houtcome.carries
    have hnone : operation.isReference = false := by
      cases operation with
      | externalReference address => exact absurd ⟨address, rfl⟩ hreference
      | _ => rfl
    have hlast : [(⟨a.pc, operation, answer⟩ : Attempt)].filter (·.operation.isReference) = [] :=
      List.filter_cons_of_neg (by rw [hnone]; exact Bool.false_ne_true)
    have hown : .externalReference ∉ operation.ownModes := by
      cases operation with
      | externalReference address => exact absurd ⟨address, rfl⟩ hreference
      | _ => exact of_decide_eq_true rfl
    have hquiet : ∀ data, .record .externalReference data ∉ done := fun data hdata =>
      Operation.not_mem_modes rfl hrecord hown hcontract
        (Operation.mode_mem_modes (hdone.subset hdata))
    have hkeeps : ∀ x ∈ done, x.isOverwrite = false := fun x hx =>
      Operation.isOverwrite_of_mem_effects hoverwrite (hdone.subset hx)
    obtain ⟨records, hholds, hmarks⟩ := h.of_carries hkeeps hquiet hcarries
    refine ⟨records, hholds, ?_⟩
    rw [List.filter_append, hlast, List.append_nil]
    exact hmarks

end Referenced

/-- **A pointer that does not fit in behind its record** is refused, and the record stays. -/
theorem Operation.externalReference_refused {a : Assembler} (address : UInt64) (ha : a.Intact)
    (hfull : a.Full) (hroom : a.HasRoom gap) {bytes : List UInt8} {encoder : Encoder}
    (hcall : a.writer.encoder.call (.write ⟨UInt64.ofNat a.pc, .externalReference, 0⟩) =
      .ok (bytes, encoder))
    (htight : a.buffer.size < a.pc + (a.contents.stream.length + bytes.length) + (8 + gap)) :
    ∃ e a', Ends (externalReference address).run a (.error e) a' ∧
      Carries a [.record .externalReference 0] a' ∧
      a'.contents = a.contents.append bytes encoder := by
  have hlength : (wordBytes address).length = 8 := length_leBytes 8 _
  have hfree : ∀ n, (Effect.record .externalReference 0).need = some n → a.HasRoom (n + gap) := by
    rintro _ ⟨⟩
    rw [Nat.zero_add]
    exact hroom
  have hafter : a.contents.after (.record .externalReference 0) =
      .ok (a.contents.append bytes encoder) := by
    apply Contents.after_record
    rw [ha.length_code]
    exact hcall
  obtain ⟨mid, hrecord, hcarries, hcontents⟩ := Effect.perform_gives ha hfree hafter
  have hstuck : mid.Stuck (wordBytes address).toByteArray.size := by
    refine ⟨hcarries.grown.full_of_full hfull, ?_⟩
    rw [hcarries.intact.hasRoom_iff, hcarries.grown.full hfull, hcontents, Contents.append,
      List.length_append, ha.length_code, ← length_bytesOf, bytesOf_toByteArray, hlength]
    omega
  obtain ⟨e, hmake⟩ := hstuck.makeRoom_ends hcarries.intact.toFits (Nat.le_refl _)
  refine ⟨e, mid, ends_of_effects rfl ?_, hcarries, hcontents⟩
  refine ends_bind.2 (Or.inl ⟨(), mid, hrecord, ends_bind.2 (Or.inr ⟨e, ?_, rfl⟩)⟩)
  exact ends_bind.2 (Or.inr ⟨e, hmake, rfl⟩)

/-- **The references of a completed descriptor stand for the requests, one by one.** Those that were
refused left records behind that dangle. -/
theorem attemptAll_references (options : AssemblerOptions) (operations : List Operation)
    (hoverwrite : ∀ operation ∈ operations, operation.isOverwrite = false)
    (hrecord : ∀ operation ∈ operations, ∀ data, operation ≠ .record .externalReference data)
    {attempts : List Attempt} {a last : Assembler} {d : Descriptor}
    (h : Operation.attemptAll operations (.new options) = .ok (attempts, a))
    (hcomplete : Gives complete a d last) :
    ∃ found instructions, d.walk .all = ⟨found, none⟩ ∧ d.instructions = .ok instructions ∧
      List.Forall₂ (Points (bytesOf instructions))
        (found.toList.filter (·.mode == .externalReference))
        (attempts.filter (·.operation.isReference)) := by
  have hreferenced : a.Intact ∧ (a.Stuck 0 ∨ Referenced attempts a) := by
    refine Stuck.attemptAll_cases ?_ (.new options) h
    intro before mid operation answer a' hmem hmid href hrun
    exact href.run hmid (hoverwrite operation hmem) (hrecord operation hmem) hrun
  obtain ⟨ha, hstuck | ⟨records, hholds, hmarks⟩⟩ := hreferenced
  · exact (hstuck.not_complete ha hcomplete).elim
  have hmode : Mode.externalReference.isPosition = false := rfl
  obtain ⟨found, hwalk, hfound⟩ := ha.complete_found hholds hcomplete hmode
  obtain ⟨roomy, hcarries, hroom, hcut⟩ := ha.complete_inv hcomplete
  have hxs : ∀ x ∈ a.lastEffects, x.isOverwrite = false := fun x hx => (quiet_lastEffects hx).1
  refine ⟨found, _, hwalk, hcut.instructions_eq, ?_⟩
  rw [hfound, List.forall₂_map_left_iff, bytesOf_toByteArray]
  refine hmarks.imp fun r attempt hmark => ?_
  have hpoints := (hmark.carries hxs hcarries).points hcarries.intact.toFits hroom
  -- a reference carries no data, and places are counted from the start
  have hread : r.readBack 0 = r := by
    cases hmark <;> simp [Record.readBack]
  rw [hread]
  exact hpoints

/-- A reference is refused after its record, and the descriptor has the record without a pointer. -/
theorem attemptAll_references_dangling :
    ∃ attempts e a d last found instructions,
      Operation.attemptAll [.emit (copies 4056 0), .externalReference 4660]
          (.new ⟨4096, 4096, false, false, false⟩) = .ok (attempts, a) ∧
      attempts.map Attempt.answer = [.ok (), .error e] ∧ Gives complete a d last ∧
      d.walk .all = ⟨found, none⟩ ∧ d.instructions = .ok instructions ∧
      found.toList.filter (·.mode == .externalReference) = [⟨4056, .externalReference, 0⟩] ∧
      instructions.size < 4056 + 8 := by
  obtain ⟨a, hemit, ha, hfull, hpc, hsize, hcontents⟩ := emit_new ⟨4096, 4096, false, false, false⟩
    (size_copies 4056 0) rfl (by decide) (by decide)
  have hcode := ha.length_code.trans hpc
  have hencoder : a.writer.encoder = .start := congrArg Contents.encoder hcontents
  have hroom : a.HasRoom gap := by
    rw [ha.hasRoom_iff, hcode, hsize, hcontents]
    decide
  have hbytes : (Encoder.start.call (.write ⟨UInt64.ofNat 4056, .externalReference, 0⟩) >>=
      fun called => .ok called.1.length) = .ok 4 := by
    decide +kernel
  obtain ⟨⟨bytes, encoder⟩, hcall, hend⟩ := bind_eq_ok.1 hbytes
  have hlength : bytes.length = 4 := Except.ok.inj hend
  obtain ⟨e, mid, hrefused, hcarries, hrecorded⟩ :=
    Operation.externalReference_refused 4660 ha hfull hroom (by
      rw [hpc, hencoder]
      exact hcall) (by
      rw [hpc, hsize, hcontents, hlength]
      decide)
  have hrun : Operation.attemptAll [.emit (copies 4056 0), .externalReference 4660]
      (.new ⟨4096, 4096, false, false, false⟩) =
        .ok ([⟨0, .emit (copies 4056 0), .ok ()⟩,
          ⟨4056, .externalReference 4660, .error e⟩], mid) := by
    refine Operation.attemptAll_cons_eq_ok.2 ⟨.ok (), a, _, hemit, ?_, rfl⟩
    refine Operation.attemptAll_cons_eq_ok.2 ⟨.error e, mid, [], hrefused, rfl, ?_⟩
    rw [hpc]
  have hgap : mid.HasRoom gap := by
    rw [hcarries.intact.hasRoom_iff, hcarries.grown.full hfull, hsize, hrecorded, hcontents,
      Contents.append, List.nil_append, hlength, length_bytesOf, size_copies]
    decide
  have hpositions : mid.positions = .start := by
    change mid.contents.positions = _
    rw [hrecorded, hcontents]
    rfl
  obtain ⟨d, last, hcomplete⟩ :=
    complete_of_room hcarries.intact.toFits hgap hcarries.intact.sound (by
      rw [hpositions]
      decide +kernel)
  obtain ⟨found, instructions, hwalk, hinstructions, hpoints⟩ :=
    attemptAll_references _ _ (by simp [Operation.isOverwrite]) (by simp) hrun hcomplete
  have hrequest : [(⟨0, .emit (copies 4056 0), .ok ()⟩ : Attempt),
      ⟨4056, .externalReference 4660, .error e⟩].filter (·.operation.isReference) =
        [⟨4056, .externalReference 4660, .error e⟩] := rfl
  rw [hrequest] at hpoints
  generalize hreferences : found.toList.filter (·.mode == .externalReference) = references
    at hpoints
  obtain _ | ⟨hpoint, hnil⟩ := hpoints
  cases hnil
  cases hpoint with
  | dangling hbeyond =>
    refine ⟨_, e, mid, d, last, found, instructions, hrun, rfl, hcomplete, hwalk, hinstructions,
      hreferences, ?_⟩
    rw [length_bytesOf] at hbeyond
    exact hbeyond

end CodeReloc
