import CodeReloc.Proofs.Assembler.Recorded
import CodeReloc.Proofs.Positions.Taking

set_option autoImplicit false

/-!
# The recorder of an assembler

The positions of an assembler are a recorder, and only three operations ask anything of it
(`Operation.requests`). They do so before anything can be refused, so whatever is tried, the
positions are those of a recorder that has answered the requests (`Tracked`), to which completing
adds one more. A record that carries the placeholder for an unknown position was handed over by the
recorder, unless it was asked for as it is: a deopt reason at an unknown position is recorded at
position 0. So the descriptor has no unknown position if none was handed over.

Main statement: `positions_known`. `placeholder_taken` is a recorder that hands over the placeholder.
-/

namespace CodeReloc

open Assembler Positions

/-! ## Positions after effects -/

/-- Only setting positions changes them. -/
theorem Contents.positions_afterAll {c c' : Contents} {xs : List Effect}
    (hxs : ∀ p, .setPositions p ∉ xs) (h : c.afterAll xs = .ok c') :
    c'.positions = c.positions := by
  refine afterAll_induction (P := fun mid => mid.positions = c.positions) ?_ rfl h
  intro x hx mid next hmid hafter
  rw [← hmid]
  cases x with
  | record mode data =>
    obtain ⟨_, -, hafter⟩ := bind_eq_ok.1 hafter
    cases hafter
    rfl
  | setPositions p => exact absurd hx (hxs p)
  | keepGap | emit | addComment | overwrite =>
    cases hafter
    rfl

variable {a a' : Assembler} {operation : Operation} {operations : List Operation}
variable {xs : List Effect} {answer : Except LimitExceeded Unit} {p : Positions}

theorem Carries.positions_eq (h : Carries a xs a') (hxs : ∀ p, .setPositions p ∉ xs) :
    a'.positions = a.positions :=
  Contents.positions_afterAll hxs h.after_eq

theorem Carries.positions_set (h : Carries a (.setPositions p :: xs) a')
    (hxs : ∀ p, .setPositions p ∉ xs) : a'.positions = p := by
  obtain ⟨mid, hset, hrest⟩ := Contents.afterAll_cons_eq_ok.1 h.after_eq
  cases hset
  exact Contents.positions_afterAll hxs hrest

/-- Setting positions is never refused. -/
theorem Outcome.carries_set (h : Outcome a (.setPositions p :: xs) answer a') :
    ∃ done, done <+: xs ∧ Carries a (.setPositions p :: done) a' := by
  cases h with
  | done h => exact ⟨xs, List.prefix_rfl, h⟩
  | @refused done rest x n e a' hsplit h hneed hstuck =>
    cases done with
    | nil =>
      cases hsplit
      cases hneed
    | cons y done =>
      cases hsplit
      exact ⟨done, List.prefix_append _ _, h⟩

theorem setPositions_not_mem_recordEffects (mode : Mode) (data : Int64) (p : Positions) :
    .setPositions p ∉ recordEffects mode data := by
  intro h
  cases (mem_recordEffects.1 h).2

/-- A position can be told from its data in a record. -/
theorem toInt64_injective {position other : Int32} (h : position.toInt64 = other.toInt64) :
    position = other := by
  rw [← position.toInt32_toInt64, h, other.toInt32_toInt64]

/-! ## Requests of an operation -/

namespace Operation

/-- What an operation asks of the recorder. -/
def requests : Operation → List Request
  | announce position => [.announce position]
  | announceStatement position => [.announceStatement position]
  | writePositions => [.take]
  | _ => []

/-- The records that writing announced positions brings. -/
def takenEffects (p : Positions) : List Effect :=
  p.takeMissing.1.flatMap fun entry => recordEffects entry.1 entry.2.toInt64

theorem setPositions_not_mem_takenEffects (p q : Positions) :
    .setPositions q ∉ takenEffects p := by
  intro h
  obtain ⟨entry, -, h⟩ := List.mem_flatMap.1 h
  exact setPositions_not_mem_recordEffects _ _ q h

/-- **The recorder answers what an operation asks of it**, whatever the operation ends in. What is
handed over is what was missing. -/
theorem answers_requests (ha : a.Intact) (h : Ends operation.run a answer a') :
    ∃ taken, a.positions.answerAll operation.requests = .ok (taken, a'.positions) ∧
      (operation = .writePositions → taken = a.positions.takeMissing.1) := by
  obtain ⟨hcontract, houtcome⟩ := run_outcome ha h
  -- the positions are set first, so they are set even where a record is refused afterwards
  cases operation with
  | announce position =>
    obtain ⟨done, hdone, hcarries⟩ := houtcome.carries_set
    rw [List.prefix_nil.1 hdone] at hcarries
    have hallowed := of_decide_eq_true (require_eq_ok.1 hcontract)
    rw [hcarries.positions_set fun _ => List.not_mem_nil]
    exact ⟨[], answerAll_singleton_eq_ok.2 (.announce position hallowed), nofun⟩
  | announceStatement position =>
    obtain ⟨done, hdone, hcarries⟩ := houtcome.carries_set
    rw [List.prefix_nil.1 hdone] at hcarries
    have hallowed := of_decide_eq_true (require_eq_ok.1 hcontract)
    rw [hcarries.positions_set fun _ => List.not_mem_nil]
    exact ⟨[], answerAll_singleton_eq_ok.2 (.announceStatement position hallowed), nofun⟩
  | writePositions =>
    obtain ⟨done, hdone, hcarries⟩ := houtcome.carries_set
    rw [hcarries.positions_set fun q hq =>
      setPositions_not_mem_takenEffects a.positions q (hdone.subset hq)]
    exact ⟨_, answerAll_singleton_eq_ok.2 .take, fun _ => rfl⟩
  | _ =>
    obtain ⟨done, hdone, hcarries⟩ := houtcome.carries
    refine ⟨[], ?_, nofun⟩
    rw [hcarries.positions_eq fun q hq => setPositions_not_mem_effects rfl q (hdone.subset hq)]
    rfl

/-- A deopt reason at an unknown position is recorded at position 0. -/
theorem deoptPosition_ne (position : Int32) :
    noPosition.toInt64 ≠ if position = noPosition then 0 else position.toInt64 := by
  split
  · decide
  · rename_i hknown
    intro h
    exact hknown (toInt64_injective h).symm

/-- **A placeholder in the stream comes from the recorder**, unless it was asked for as it is. -/
theorem placeholder_mem_effects {mode : Mode} (hmode : mode.isPosition = true)
    (hcontract : operation.contract = .ok ())
    (hrecord : operation ≠ .record mode noPosition.toInt64)
    (h : .record mode noPosition.toInt64 ∈ operation.effects a) :
    operation = .writePositions ∧ (mode, noPosition) ∈ a.positions.takeMissing.1 := by
  have hmodes := mode_mem_modes h
  -- three operations record positions: as they are asked for, with a reason, and from the recorder
  cases operation with
  | record other data =>
    cases (mem_recordEffects.1 h).2
    exact absurd rfl hrecord
  | deoptReason reason position =>
    rw [effects] at h
    split at h
    · rcases List.mem_append.1 h with hposition | hreason
      · exact absurd (Effect.record.inj (mem_recordEffects.1 hposition).2).2
          (deoptPosition_ne position)
      · rw [(Effect.record.inj (mem_recordEffects.1 hreason).2).1] at hmode
        cases hmode
    · cases h
  | debugBreakSlot other arguments =>
    cases List.mem_singleton.1 hmodes
    rw [Mode.isPosition_of_isDebugBreakSlot (require_eq_ok.1 hcontract)] at hmode
    cases hmode
  | writePositions =>
    refine ⟨rfl, ?_⟩
    rcases List.mem_cons.1 h with hset | htaken
    · cases hset
    · obtain ⟨⟨kind, position⟩, hentry, htaken⟩ := List.mem_flatMap.1 htaken
      obtain ⟨hkind, hposition⟩ := Effect.record.inj (mem_recordEffects.1 htaken).2
      rw [hkind, toInt64_injective hposition]
      exact hentry
  | comment | generatorContinuation | constPool | veneerPool | externalReference =>
    cases List.mem_singleton.1 hmodes
    cases hmode
  | _ => cases hmodes

end Operation

/-! ## Runs -/

/-- The positions of an assembler are those of a recorder that has answered requests. Every
placeholder in its stream was handed over. -/
def Tracked (requests : List Request) (a : Assembler) : Prop :=
  ∃ records taken, a.contents.Holds records ∧
    start.answerAll requests = .ok (taken, a.positions) ∧
    ∀ r ∈ records, r.mode.isPosition = true → r.data = noPosition.toInt64 →
      (r.mode, noPosition) ∈ taken

namespace Tracked

variable {requests : List Request}

theorem new (options : AssemblerOptions) : Tracked [] (.new options) :=
  ⟨[], [], (Reflects.new options).stream_eq, rfl, fun _ h => nomatch h⟩

/-- Effects that bring no other placeholders than the recorder hands over. -/
theorem of_carries (ha : Tracked requests a) {later : List Request} {more : List (Mode × Int32)}
    (h : Carries a xs a') (hlater : a.positions.answerAll later = .ok (more, a'.positions))
    (hplaceholder : ∀ mode : Mode, mode.isPosition = true →
      .record mode noPosition.toInt64 ∈ xs → (mode, noPosition) ∈ more) :
    Tracked (requests ++ later) a' := by
  obtain ⟨records, taken, hholds, hanswers, hknown⟩ := ha
  refine ⟨_, taken ++ more, hholds.afterAll h.after_eq, ?_, ?_⟩
  · exact answerAll_append_eq_ok.2 ⟨taken, _, more, hanswers, hlater, rfl⟩
  · intro r hr hmode hdata
    rw [List.mem_append]
    rcases List.mem_append.1 hr with hbefore | hadded
    · exact Or.inl (hknown r hbefore hmode hdata)
    · right
      apply hplaceholder r.mode hmode
      rw [← hdata]
      exact mem_recordsOf hadded

/-- **One more operation**, whatever it ends in. -/
theorem run (ha : a.Intact) (h : Tracked requests a)
    (hrecord : ∀ mode : Mode, mode.isPosition = true →
      operation ≠ .record mode noPosition.toInt64)
    (hrun : Ends operation.run a answer a') : Tracked (requests ++ operation.requests) a' := by
  obtain ⟨hcontract, houtcome⟩ := Operation.run_outcome ha hrun
  obtain ⟨done, hdone, hcarries⟩ := houtcome.carries
  obtain ⟨more, hanswers, hmore⟩ := Operation.answers_requests ha hrun
  refine h.of_carries hcarries hanswers ?_
  intro mode hmode hmem
  obtain ⟨hwrite, htaken⟩ :=
    Operation.placeholder_mem_effects hmode hcontract (hrecord mode hmode) (hdone.subset hmem)
  rw [hmore hwrite]
  exact htaken

/-- Operations one after the other. -/
theorem attemptAll {options : AssemblerOptions} {attempts : List Attempt}
    (hrecord : ∀ operation ∈ operations, ∀ mode : Mode, mode.isPosition = true →
      operation ≠ .record mode noPosition.toInt64)
    (h : Operation.attemptAll operations (.new options) = .ok (attempts, a)) :
    a.Intact ∧ Tracked (operations.flatMap Operation.requests) a := by
  rw [← Operation.map_operation h, List.flatMap_map]
  refine Operation.attemptAll_induction (P := fun before mid => mid.Intact ∧
    Tracked (before.flatMap fun attempt => attempt.operation.requests) mid) [] ?_
    ⟨(Reflects.new options).intact, .new options⟩ h
  rintro before mid operation answer a' hmem ⟨hmid, htracked⟩ hrun
  refine ⟨Operation.intact_of_run hmid hrun, ?_⟩
  rw [List.flatMap_append, List.flatMap_singleton]
  exact htracked.run hmid (hrecord operation hmem) hrun

/-- Completing asks for what is missing, and the descriptor has the records of the stream. -/
theorem complete (ha : a.Intact) (h : Tracked requests a) {d : Descriptor}
    (hcomplete : Gives Assembler.complete a d a') :
    ∃ taken p found, start.answerAll (requests ++ [.take]) = .ok (taken, p) ∧
      d.walk .all = ⟨found, none⟩ ∧
      ∀ r ∈ found, r.mode.isPosition = true → r.data = noPosition.toInt64 →
        (r.mode, noPosition) ∈ taken := by
  obtain ⟨roomy, hcarries, -, hcut⟩ := ha.complete_inv hcomplete
  -- completing takes what is missing once more
  have htaken : a.positions.answerAll [.take] =
      .ok (a.positions.takeMissing.1, roomy.positions) := by
    rw [answerAll_singleton_eq_ok, hcarries.positions_set]
    · exact .take
    · intro p hp
      rcases List.mem_append.1 hp with hp | hp
      · exact Operation.setPositions_not_mem_takenEffects _ p hp
      · cases List.mem_singleton.1 hp
  have htracked : Tracked (requests ++ [.take]) roomy := by
    refine h.of_carries hcarries htaken ?_
    intro mode hmode hmem
    have hasked : Operation.writePositions ≠ .record mode noPosition.toInt64 := nofun
    rcases List.mem_append.1 hmem with hwritten | hkept
    · exact (Operation.placeholder_mem_effects hmode rfl hasked hwritten).2
    · cases List.mem_singleton.1 hkept
  obtain ⟨records, taken, hholds, hanswers, hknown⟩ := htracked
  refine ⟨taken, _, _, hanswers, hcut.walk_eq hholds, ?_⟩
  intro r hr hmode hdata
  obtain ⟨first, hfirst, rfl⟩ := List.mem_map.1 (List.mem_toArray.1 hr)
  have hwritten := mem_of_mem_kept hfirst
  rw [written_map_write] at hwritten
  -- a position reads back with its data
  have hsame : (first.readBack 0).data = first.data := by
    obtain ⟨pc, mode, data⟩ := first
    cases mode <;> first | rfl | cases hmode
  rw [hsame] at hdata
  exact hknown first hwritten hmode hdata

end Tracked

/-- **Every position that is handed over is known exactly if a position is announced before records
are first taken with a statement position.** Otherwise the placeholder for a position is handed over
as well, and nothing else that is unknown. So an assembler of which this is asked, completing
included, leaves an unknown position in the descriptor only if it was asked too early, or for the
placeholder itself. -/
theorem positions_known {requests : List Request}
    (hallowed : ∀ request ∈ requests, request.isAllowed = true) :
    ∃ taken p, start.answerAll requests = .ok (taken, p) ∧
      (∀ entry ∈ taken, 0 ≤ entry.2 ∨ entry = (.position, noPosition)) ∧
      ((∀ entry ∈ taken, 0 ≤ entry.2) ↔ Prepared requests) ∧
      ∀ (options : AssemblerOptions) (operations : List Operation) attempts a d last,
        operations.flatMap Operation.requests ++ [.take] = requests →
        (∀ operation ∈ operations, ∀ mode : Mode, mode.isPosition = true →
          operation ≠ .record mode noPosition.toInt64) →
        Operation.attemptAll operations (.new options) = .ok (attempts, a) →
        Gives Assembler.complete a d last →
        ∃ found, d.walk .all = ⟨found, none⟩ ∧
          ∀ r ∈ found, r.mode.isPosition = true → r.data = noPosition.toInt64 →
            r.mode = .position ∧ ¬ Prepared requests := by
  obtain ⟨taken, p, hanswers⟩ := start.answerAll_of_isAllowed hallowed
  refine ⟨taken, p, hanswers, taken_nonneg_or hanswers, taken_nonneg_iff hanswers, ?_⟩
  rintro options operations attempts a d last rfl hrecord hrun hcomplete
  obtain ⟨ha, htracked⟩ := Tracked.attemptAll hrecord hrun
  obtain ⟨_, _, found, hsame, hwalk, hfound⟩ := htracked.complete ha hcomplete
  cases hanswers.symm.trans hsame
  refine ⟨found, hwalk, ?_⟩
  intro r hr hmode hdata
  -- the recorder has handed the placeholder over
  have hplaceholder := hfound r hr hmode hdata
  rcases taken_nonneg_or hanswers _ hplaceholder with hknown | hposition
  · have habsurd : 0 ≤ noPosition := hknown
    exact absurd habsurd (by decide)
  · rw [hposition] at hplaceholder
    exact ⟨congrArg Prod.fst hposition, (placeholder_taken_iff hanswers).1 hplaceholder⟩

/-- A statement position and a position are announced and written. -/
theorem positions_known_announced :
    ∃ taken p, start.answerAll [.announceStatement 10, .announce 14, .take, .take] =
        .ok (taken, p) ∧ (∀ entry ∈ taken, 0 ≤ entry.2) ∧
      ∃ attempts a d last found,
        Operation.attemptAll [.announceStatement 10, .announce 14, .writePositions]
            (.new ⟨4096, 4096, false, false, false⟩) = .ok (attempts, a) ∧
          Gives Assembler.complete a d last ∧ d.walk .all = ⟨found, none⟩ ∧
          ∀ r ∈ found, r.mode.isPosition = true → r.data ≠ noPosition.toInt64 := by
  have hprepared : Prepared [.announceStatement 10, .announce 14, .take, .take] := by
    have hanswers : start.answerAll [.announceStatement 10, .announce 14, .take, .take] =
        .ok ([(.statementPosition, 10), (.position, 14)], ⟨14, 10, 14, 10⟩) := by
      decide +kernel
    exact (taken_nonneg_iff hanswers).1 (by decide)
  have hallowed : ∀ request ∈ ([.announceStatement 10, .announce 14, .take, .take] : List Request),
      request.isAllowed = true := by
    decide
  obtain ⟨taken, p, hanswers, -, hiff, hassembler⟩ := positions_known hallowed
  refine ⟨taken, p, hanswers, hiff.2 hprepared, ?_⟩
  have hnew := Filled.new ⟨4096, 4096, false, false, false⟩ (by decide)
  obtain ⟨first, hfirst, h₁⟩ := hnew.run (.announceStatement 10)
    ⟨⟨4096, 4096, false, false, false⟩, [], [], .start, #[], ⟨-1, 10, -1, -1⟩⟩
    (by decide) rfl (by decide)
  obtain ⟨second, hsecond, h₂⟩ := h₁.run (.announce 14)
    ⟨⟨4096, 4096, false, false, false⟩, [], [], .start, #[], ⟨14, 10, -1, -1⟩⟩
    (by decide)
    (by
      rw [Operation.effects, h₁.positions_eq]
      rfl)
    (by decide)
  obtain ⟨a, hthird, h₃⟩ := h₂.run .writePositions
    ⟨⟨4096, 4096, false, false, false⟩, [], [2, 42],
      ⟨0, 0, 14, some .position, some ⟨0, 4⟩⟩, #[], ⟨14, 10, 14, 10⟩⟩ rfl
    (by
      rw [Operation.effects, h₂.positions_eq]
      rfl)
    (by decide)
  have hrun : Operation.attemptAll [.announceStatement 10, .announce 14, .writePositions]
      (.new ⟨4096, 4096, false, false, false⟩) =
        .ok ([⟨0, .announceStatement 10, .ok ()⟩, ⟨first.pc, .announce 14, .ok ()⟩,
          ⟨second.pc, .writePositions, .ok ()⟩], a) := by
    refine Operation.attemptAll_cons_eq_ok.2 ⟨.ok (), first, _, hfirst, ?_, rfl⟩
    refine Operation.attemptAll_cons_eq_ok.2 ⟨.ok (), second, _, hsecond, ?_, rfl⟩
    exact Operation.attemptAll_cons_eq_ok.2 ⟨.ok (), a, [], hthird, rfl, rfl⟩
  have hroom : a.HasRoom gap := by
    rw [h₃.intact.hasRoom_iff, h₃.contents_eq, h₃.size_eq]
    decide
  obtain ⟨d, last, hcomplete⟩ := complete_of_room h₃.intact.toFits hroom h₃.intact.sound (by
    rw [h₃.positions_eq]
    decide +kernel)
  obtain ⟨found, hwalk, hfound⟩ := hassembler _ _ _ a d last rfl (by simp) hrun hcomplete
  refine ⟨_, a, d, last, found, hrun, hcomplete, hwalk, ?_⟩
  intro r hr hmode hdata
  exact (hfound r hr hmode hdata).2 hprepared

/-- Without a position, the placeholder is handed over behind the first statement position. -/
theorem placeholder_taken :
    start.answerAll [.announceStatement 0, .take] =
      .ok ([(.statementPosition, 0), (.position, noPosition)], ⟨noPosition, 0, noPosition, 0⟩) := by
  decide +kernel

end CodeReloc
