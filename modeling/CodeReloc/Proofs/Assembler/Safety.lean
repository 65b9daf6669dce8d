import CodeReloc.Proofs.Assembler.Recorded
import CodeReloc.Proofs.Stream.Contract

set_option autoImplicit false

/-!
# Operations within their contracts

An operation that is asked for something within its contract (`Operation.isLawful`) never faults: it
answers, or it exceeds the limit. The gap is what this rests on. Every form of a record and the
position that is held back fit into it together, and it is made free again before every record. The
places of records never go back and lie less than `2 ^ 32` behind each other as long as the buffer
is not larger than that (`Assembler.Ready`).

Main statement: `attemptAll_safe`.
-/

namespace CodeReloc

open Wire Assembler

/-! ## Records within their contracts -/

/-- Data that a record of the mode has room for. -/
def Mode.hasRoomFor : Mode → Int64 → Bool
  | .codeTargetWithId, data | .position, data | .statementPosition, data => inSigned data 32
  | .deoptReason, data => inUnsigned data shortDataBits
  | _, _ => true

/-- The mode may be written, with this data. -/
def Mode.admits (mode : Mode) (data : Int64) : Bool := mode.isWritable && mode.hasRoomFor data

/-- A number of 32 bits is in the signed range of 32 bits. -/
theorem inSigned_toInt64 (value : Int32) : inSigned value.toInt64 32 = true := by
  rw [inSigned_iff (by decide), Int32.toInt_toInt64]
  exact ⟨value.le_toInt, value.toInt_lt⟩

namespace Mode

theorem admits_position (position : Int32) : Mode.position.admits position.toInt64 = true :=
  inSigned_toInt64 position

theorem admits_statementPosition (position : Int32) :
    Mode.statementPosition.admits position.toInt64 = true :=
  inSigned_toInt64 position

theorem admits_deoptReason {reason : UInt8} (h : reason.toNat < 2 ^ shortDataBits) :
    Mode.deoptReason.admits (Int64.ofNat reason.toNat) = true := by
  have hsmall : reason.toNat < 64 := h
  have hreason : (Int64.ofNat reason.toNat).toInt = reason.toNat :=
    Int64.toInt_ofNat_of_lt (by omega)
  have hbits : ((1 <<< shortDataBits : Nat) : Int) = 64 := rfl
  change inUnsigned (Int64.ofNat reason.toNat) shortDataBits = true
  rw [inUnsigned_iff (by decide), hreason, hbits]
  omega

/-- A slot has room for any data. -/
theorem admits_debugBreakSlot {mode : Mode} (h : mode.isDebugBreakSlot = true) (data : Int64) :
    mode.admits data = true := by
  rcases isDebugBreakSlot_iff.1 h with rfl | rfl | rfl | rfl <;> rfl

end Mode

/-- A record that does not go back and lies within the first `2 ^ 32` places breaks nothing. -/
theorem Record.not_breaks_of_admits {r : Record} {last : UInt64}
    (hmode : r.mode.admits r.data = true) (hlast : last.toNat ≤ r.pc.toNat)
    (hpc : r.pc.toNat < 2 ^ 32) (fault : Fault) : ¬ r.Breaks last fault := by
  rw [Mode.admits, Bool.and_eq_true] at hmode
  obtain ⟨hwritable, hdata⟩ := hmode
  intro hbreaks
  cases hbreaks with
  | unencodable hother =>
    rw [isWritable_eq_false_iff.2 hother] at hwritable
    cases hwritable
  | backwards hbackwards => omega
  | distant hdistant => omega
  | word hword hwide =>
    have hroom : r.mode.hasRoomFor r.data = inSigned r.data 32 := by
      rcases hword with h | h | h <;> rw [h] <;> rfl
    rw [hroom, inSigned_eq_false_iff.2 hwide] at hdata
    cases hdata
  | reason hreason hwide =>
    have hroom : r.mode.hasRoomFor r.data = inUnsigned r.data shortDataBits := by
      rw [hreason]
      rfl
    rw [hroom, inUnsigned_eq_false_iff.2 hwide] at hdata
    cases hdata

/-! ## Operations within their contracts -/

/-- What is asked for is within the contract. -/
def Operation.isLawful : Operation → Bool
  | record mode data => mode.isNone || mode.admits data
  | deoptReason reason _ => reason.toNat < 2 ^ shortDataBits
  | align multiple => 2 ≤ multiple && multiple.isPowerOfTwo
  | debugBreakSlot mode _ => mode.isDebugBreakSlot
  | announce position | announceStatement position => 0 ≤ position
  | _ => true

/-- If it writes a record, the record is within its contract. -/
def Effect.isLawful : Effect → Bool
  | record mode data => mode.admits data
  | _ => true

variable {a a' : Assembler} {operation : Operation} {x : Effect} {xs : List Effect}
variable {answer : Except LimitExceeded Unit} {bound : Nat}

theorem Operation.contract_of_isLawful (h : operation.isLawful = true) :
    operation.contract = .ok () := by
  cases operation with
  | align | debugBreakSlot => exact require_eq_ok.2 h
  | announce | announceStatement => exact require_eq_ok.2 h
  | _ => rfl

theorem Effect.isLawful_of_recordEffects {mode : Mode} {data : Int64}
    (hmode : mode.isNone = false → mode.admits data = true) (h : x ∈ recordEffects mode data) :
    x.isLawful = true := by
  obtain ⟨hnone, rfl⟩ := mem_recordEffects.1 h
  exact hmode hnone

/-- The effects of an operation within its contract are within theirs. -/
theorem Operation.isLawful_of_mem_effects (hoperation : operation.isLawful = true)
    (h : x ∈ operation.effects a) : x.isLawful = true := by
  cases operation with
  | record mode data =>
    refine Effect.isLawful_of_recordEffects ?_ h
    intro hnone
    rw [isLawful, hnone, Bool.false_or] at hoperation
    exact hoperation
  | comment text =>
    rw [effects] at h
    split at h
    · rcases List.mem_cons.1 h with rfl | h
      · rfl
      · exact Effect.isLawful_of_recordEffects (fun _ => rfl) h
    · cases h
  | deoptReason reason position =>
    rw [effects] at h
    split at h
    · rcases List.mem_append.1 h with h | h
      · refine Effect.isLawful_of_recordEffects (fun _ => ?_) h
        split
        · decide
        · exact Mode.admits_position position
      · refine Effect.isLawful_of_recordEffects (fun _ => ?_) h
        exact Mode.admits_deoptReason (of_decide_eq_true hoperation)
    · cases h
  | generatorContinuation | constPool | veneerPool =>
    exact Effect.isLawful_of_recordEffects (fun _ => rfl) h
  | debugBreakSlot mode arguments =>
    refine Effect.isLawful_of_recordEffects (fun _ => ?_) h
    exact Mode.admits_debugBreakSlot hoperation _
  | externalReference address =>
    rcases List.mem_append.1 h with h | h
    · exact Effect.isLawful_of_recordEffects (fun _ => rfl) h
    · rw [List.mem_singleton.1 h]
      rfl
  | writePositions =>
    rcases List.mem_cons.1 h with rfl | h
    · rfl
    · obtain ⟨entry, hentry, h⟩ := List.mem_flatMap.1 h
      refine Effect.isLawful_of_recordEffects (fun _ => ?_) h
      rcases Positions.mem_takeMissing hentry with hkind | hkind
      · rw [hkind]
        exact Mode.admits_statementPosition entry.2
      · rw [hkind]
        exact Mode.admits_position entry.2
  | align multiple =>
    rw [List.eq_of_mem_replicate h]
    rfl
  | emitByte | emitWord32 | emitWord64 | emit | keepGap | announce | announceStatement
  | overwrite =>
    rw [List.mem_singleton.1 h]
    rfl

/-! ## Assemblers between operations -/

namespace Assembler

/-- An assembler whose records do not go back, in a buffer that is not larger than a bound. -/
structure Ready (bound : Nat) (a : Assembler) : Prop extends a.Intact where
  lastPc_le : a.writer.encoder.lastPc.toNat ≤ a.pc
  size_le : a.buffer.size ≤ bound
  limit_le : a.options.maxSize ≤ bound

namespace Ready

theorem new {options : AssemblerOptions}
    (hbound : max minimalSize (max options.initialSize options.maxSize) ≤ bound) :
    Ready bound (.new options) := by
  refine { (Reflects.new options).intact with lastPc_le := ?_, size_le := ?_, limit_le := ?_ }
  · exact Nat.zero_le _
  · rw [Assembler.new, size_copies]
    omega
  · change options.maxSize ≤ bound
    omega

/-- Effects keep the places of records in order. -/
theorem carries (ha : Ready bound a) (h : Carries a xs a') : Ready bound a' := by
  -- the invariant is said on the contents, where an effect is one equation
  have hlast : a'.contents.encoder.lastPc.toNat ≤ a'.contents.code.length := by
    refine Contents.afterAll_induction
      (P := fun c => c.encoder.lastPc.toNat ≤ c.code.length) ?_ ?_ h.after_eq
    · intro x _ c c' hc hafter
      have hlength := Contents.length_code_after hafter
      cases x with
      | record mode data =>
        obtain ⟨⟨bytes, encoder⟩, hcall, hafter⟩ := bind_eq_ok.1 hafter
        cases hafter
        -- the last record lies where the instructions end
        have hlast : encoder.lastPc = UInt64.ofNat c.code.length := (Encoder.lastPc_call hcall).2
        change encoder.lastPc.toNat ≤ c.code.length
        rw [hlast, UInt64.toNat_ofNat']
        exact Nat.mod_le _ _
      | keepGap | emit | addComment | setPositions | overwrite =>
        cases hafter
        rw [hlength]
        exact Nat.le_add_right_of_le hc
    · rw [ha.length_code]
      exact ha.lastPc_le
  refine { h.intact with lastPc_le := ?_, size_le := ?_, limit_le := ?_ }
  · rw [← h.intact.length_code]
    exact hlast
  · exact h.grown.size_le ha.limit_le ha.size_le
  · rw [h.grown.options_eq]
    exact ha.limit_le

/-- Where the gap is free, a record within its contract is written. -/
theorem appendRecord_gives (ha : Ready bound a) (hbound : bound ≤ 2 ^ 32) (hroom : a.HasRoom gap)
    {mode : Mode} {data : Int64} (hmode : mode.admits data = true) :
    ∃ a', Gives (appendRecord mode data) a () a' := by
  have hfree : a.pc + 32 ≤ a.writer.pos := hroom
  have hpos := ha.pos_le
  have hsize := ha.size_le
  have hlimit : a.pc < 2 ^ 32 := by omega
  have hpc : (UInt64.ofNat a.pc).toNat = a.pc :=
    UInt64.toNat_ofNat_of_lt' (Nat.lt_trans hlimit (by decide))
  have hlast : a.writer.encoder.lastPc.toNat ≤ (UInt64.ofNat a.pc).toNat := by
    rw [hpc]
    exact ha.lastPc_le
  have hkept : ∀ fault,
      ¬ (Record.mk (UInt64.ofNat a.pc) mode data).Breaks a.writer.encoder.lastPc fault :=
    Record.not_breaks_of_admits hmode hlast (by rw [hpc]; exact hlimit)
  obtain ⟨bytes, encoder, hcall⟩ := Encoder.call_of_not_breaks hkept
  exact ha.toIntact.appendRecord_gives hroom hcall

/-- **An effect within its contract does not fault.** -/
theorem perform_ends (ha : Ready bound a) (hbound : bound ≤ 2 ^ 32) (hx : x.isLawful = true) :
    ∃ answer a', Ends x.perform a answer a' := by
  have hmake := makeRoom_reaches ha.toFits
  cases x with
  | keepGap =>
    obtain ⟨answer, a', hends, -⟩ := hmake 0
    exact ⟨answer, a', hends⟩
  | emit bytes =>
    obtain ⟨answer, a', hends, -⟩ := emit_reaches ha.toFits bytes
    exact ⟨answer, a', hends⟩
  | record mode data =>
    obtain ⟨answer, mid, hends, -⟩ := hmake 0
    obtain ⟨hmid, hgrown, hcontents, hfree, -⟩ := ha.makeRoom_inv hends
    cases answer with
    | error e => exact ⟨.error e, mid, ends_bind.2 (Or.inr ⟨e, hends, rfl⟩)⟩
    | ok u =>
      -- the buffer may have been exchanged, but the gap is free now
      have hroom := hfree rfl
      rw [Nat.zero_add] at hroom
      have hready := ha.carries ((Carries.nil hmid).of_moved hgrown hcontents)
      obtain ⟨a', happend⟩ := hready.appendRecord_gives hbound hroom hx
      exact ⟨.ok (), a', ends_bind.2 (Or.inl ⟨u, mid, hends, happend⟩)⟩
  | addComment text => exact ⟨.ok (), _, rfl⟩
  | setPositions positions => exact ⟨.ok (), _, rfl⟩
  | overwrite offset bytes => exact ⟨.ok (), _, rfl⟩

theorem performAll_ends (ha : Ready bound a) (hbound : bound ≤ 2 ^ 32)
    (hxs : ∀ x ∈ xs, x.isLawful = true) : ∃ answer a', Ends (performAll xs) a answer a' := by
  induction xs generalizing a with
  | nil => exact ⟨.ok (), a, rfl⟩
  | cons x xs ih =>
    obtain ⟨answer, mid, hends⟩ := ha.perform_ends hbound (hxs x List.mem_cons_self)
    cases answer with
    | error e => exact ⟨.error e, mid, ends_bind.2 (Or.inr ⟨e, hends, rfl⟩)⟩
    | ok u =>
      cases Effect.perform_outcome ha.toIntact hends with
      | done hcarries =>
        obtain ⟨answer, a', hrest⟩ :=
          ih (ha.carries hcarries) fun y hy => hxs y (List.mem_cons_of_mem x hy)
        exact ⟨answer, a', ends_bind.2 (Or.inl ⟨u, mid, hends, hrest⟩)⟩

/-- **An operation within its contract does not fault.** -/
theorem run_ends (ha : Ready bound a) (hbound : bound ≤ 2 ^ 32)
    (hoperation : operation.isLawful = true) : ∃ answer a', Ends operation.run a answer a' := by
  obtain ⟨answer, a', hends⟩ :=
    ha.performAll_ends hbound fun x => Operation.isLawful_of_mem_effects hoperation
  exact ⟨answer, a',
    Operation.ends_of_effects (Operation.contract_of_isLawful hoperation) hends⟩

theorem run (ha : Ready bound a) (h : Ends operation.run a answer a') : Ready bound a' := by
  obtain ⟨-, houtcome⟩ := Operation.run_outcome ha.toIntact h
  obtain ⟨_, -, hcarries⟩ := houtcome.carries
  exact ha.carries hcarries

/-- Neither do operations one after the other. -/
theorem attemptAll_ends (ha : Ready bound a) (hbound : bound ≤ 2 ^ 32)
    {operations : List Operation}
    (hlawful : ∀ operation ∈ operations, operation.isLawful = true) :
    ∃ attempts a', Operation.attemptAll operations a = .ok (attempts, a') ∧ Ready bound a' := by
  induction operations generalizing a with
  | nil => exact ⟨[], a, rfl, ha⟩
  | cons operation operations ih =>
    obtain ⟨answer, mid, hends⟩ := ha.run_ends hbound (hlawful operation List.mem_cons_self)
    obtain ⟨attempts, a', hrest, ha'⟩ :=
      ih (ha.run hends) fun other hother => hlawful other (List.mem_cons_of_mem _ hother)
    exact ⟨_, a', Operation.attemptAll_cons_eq_ok.2 ⟨answer, mid, attempts, hends, hrest, rfl⟩, ha'⟩

/-- **Completing does not fault**, and leaves the instructions alone. -/
theorem complete_reaches (ha : Ready bound a) (hbound : bound ≤ 2 ^ 32) :
    Reaches complete a fun answer a' =>
      a'.Fits ∧ a'.buffer.size ≤ bound ∧ a'.contents.code = a.contents.code ∧
        ∀ d, answer = .ok d → d.instructions = .ok a.contents.code.toByteArray := by
  have hlawful : ∀ x ∈ a.lastEffects, x.isLawful = true := by
    intro x hx
    rcases List.mem_append.1 hx with hx | hx
    · exact Operation.isLawful_of_mem_effects rfl hx
    · rw [List.mem_singleton.1 hx]
      rfl
  obtain ⟨answer, mid, hlast⟩ := ha.performAll_ends hbound hlawful
  obtain ⟨houtcome, hroom⟩ := ha.lastEffects_outcome hlast
  obtain ⟨done, hdone, hcarries⟩ := houtcome.carries
  have hcode := hcarries.code_eq fun x hx => quiet_lastEffects (hdone.subset hx)
  have hmid := ha.carries hcarries
  cases answer with
  | error e =>
    refine ⟨.error e, mid, ?_, hmid.toFits, hmid.size_le, hcode, fun d hd => nomatch hd⟩
    rw [complete_eq]
    exact ends_bind.2 (Or.inr ⟨e, hlast, rfl⟩)
  | ok u =>
    obtain ⟨d, a', hgives, hcut⟩ := hmid.cut_gives (hroom rfl)
    refine ⟨.ok d, a', ?_, hcut.fits, ?_, ?_, ?_⟩
    · rw [complete_eq]
      exact ends_bind.2 (Or.inl ⟨u, mid, hlast, hgives⟩)
    · rw [hcut.size_eq]
      exact hmid.size_le
    · rw [hcut.contents_eq]
      exact hcode
    · rintro _ ⟨⟩
      rw [hcut.instructions_eq, hcode]

/-- An operation that does not overwrite leaves the instructions as they are, and if it only
records, it does not add to them either. -/
theorem run_reaches (ha : Ready bound a) (hbound : bound ≤ 2 ^ 32)
    (hoperation : operation.isLawful = true) (hoverwrite : operation.isOverwrite = false) :
    Reaches operation.run a fun _ a' =>
      a.contents.code <+: a'.contents.code ∧
        (operation.isRecording = true → a'.contents.code = a.contents.code) := by
  obtain ⟨answer, a', hends⟩ := ha.run_ends hbound hoperation
  refine ⟨answer, a', hends, ?_⟩
  obtain ⟨-, houtcome⟩ := Operation.run_outcome ha.toIntact hends
  obtain ⟨done, hdone, hcarries⟩ := houtcome.carries
  have hkeeps : ∀ x ∈ done, x.isOverwrite = false := fun x hx =>
    Operation.isOverwrite_of_mem_effects hoverwrite (hdone.subset hx)
  constructor
  · rw [Contents.code_afterAll hkeeps hcarries.after_eq]
    exact List.prefix_append _ _
  · intro hrecording
    refine hcarries.code_eq fun x hx => ⟨hkeeps x hx, ?_⟩
    exact Operation.emitted_of_mem_effects hrecording (hdone.subset hx)

end Ready

theorem bytesOf_instructions (a : Assembler) : bytesOf a.instructions = a.contents.code := by
  rw [instructions, bytesOf_extract, List.drop_zero, contents]

end Assembler

/-! ## Whole runs -/

/-- **Operations within their contracts do not fault**, however many of them are refused.
Instructions, stream and the free bytes between them lie in the buffer, which does not become larger
than the sizes asked for. Recording and completing leave the instructions as they are. -/
theorem attemptAll_safe (options : AssemblerOptions) (operations : List Operation)
    (hinitial : options.initialSize ≤ 2 ^ 32) (hmax : options.maxSize ≤ 2 ^ 32)
    (hlawful : ∀ operation ∈ operations, operation.isLawful = true) :
    ∃ attempts a, Operation.attemptAll operations (.new options) = .ok (attempts, a) ∧
      a.pc ≤ a.writer.pos ∧ a.writer.pos ≤ a.buffer.size ∧
      a.space = .ok (a.writer.pos - a.pc) ∧
      a.streamSize = .ok (a.buffer.size - a.writer.pos) ∧
      a.buffer.size ≤ max minimalSize (max options.initialSize options.maxSize) ∧
      (∀ operation : Operation, operation.isLawful = true → operation.isOverwrite = false →
        Reaches operation.run a fun _ a' =>
          bytesOf a.instructions <+: bytesOf a'.instructions ∧
            (operation.isRecording = true → a'.instructions = a.instructions)) ∧
      Reaches complete a fun answer a' =>
        a'.pc ≤ a'.writer.pos ∧ a'.writer.pos ≤ a'.buffer.size ∧
        a'.buffer.size ≤ max minimalSize (max options.initialSize options.maxSize) ∧
        a'.instructions = a.instructions ∧
        ∀ d, answer = .ok d → d.instructions = .ok a.instructions := by
  have hbound : max minimalSize (max options.initialSize options.maxSize) ≤ 2 ^ 32 := by
    have hminimal : minimalSize = 4096 := rfl
    omega
  obtain ⟨attempts, a, hrun, ha⟩ := (Ready.new (Nat.le_refl _)).attemptAll_ends hbound hlawful
  refine ⟨attempts, a, hrun, ha.pc_le, ha.pos_le, ha.space_eq, ha.streamSize_eq, ha.size_le,
    ?_, ?_⟩
  · intro operation hoperation hoverwrite
    refine (ha.run_reaches hbound hoperation hoverwrite).mono ?_
    rintro _ a' ⟨hbelow, hrecording⟩
    rw [bytesOf_instructions, bytesOf_instructions]
    refine ⟨hbelow, fun h => bytesOf_injective ?_⟩
    rw [bytesOf_instructions, bytesOf_instructions]
    exact hrecording h
  · refine (ha.complete_reaches hbound).mono ?_
    rintro answer a' ⟨hfits, hsize, hcode, hinstructions⟩
    have hcut : a.contents.code.toByteArray = a.instructions := by
      apply bytesOf_injective
      rw [bytesOf_toByteArray, bytesOf_instructions]
    rw [hcut] at hinstructions
    refine ⟨hfits.pc_le, hfits.pos_le, hsize, bytesOf_injective ?_, hinstructions⟩
    rw [bytesOf_instructions, bytesOf_instructions]
    exact hcode

/-- Bytes are refused between records, and the assembler goes on. -/
theorem attemptAll_safe_refused :
    ∃ attempts a,
      Operation.attemptAll [.comment "a", .emit (copies 5000 0), .record .codeTargetWithId (-1),
          .announce 3, .align 8] (.new ⟨0, 4096, true, true, false⟩) = .ok (attempts, a) ∧
      a.pc ≤ a.writer.pos ∧ a.writer.pos ≤ a.buffer.size ∧ a.buffer.size ≤ 4096 ∧
      Reaches (Operation.deoptReason 63 5).run a (fun _ a' => a'.instructions = a.instructions) ∧
      Reaches complete a fun _ a' => a'.instructions = a.instructions := by
  obtain ⟨attempts, a, hrun, hpc, hpos, -, -, hsize, hoperation, hcomplete⟩ :=
    attemptAll_safe ⟨0, 4096, true, true, false⟩
      [.comment "a", .emit (copies 5000 0), .record .codeTargetWithId (-1), .announce 3, .align 8]
      (by decide) (by decide) (by decide +kernel)
  refine ⟨attempts, a, hrun, hpc, hpos, hsize, ?_, ?_⟩
  · refine (hoperation (.deoptReason 63 5) rfl rfl).mono ?_
    rintro _ a' ⟨-, hrecording⟩
    exact hrecording rfl
  · refine hcomplete.mono ?_
    rintro _ a' ⟨-, -, -, hinstructions, -⟩
    exact hinstructions

end CodeReloc
