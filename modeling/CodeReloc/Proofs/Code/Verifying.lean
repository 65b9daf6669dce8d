import CodeReloc.Code.Verify
import CodeReloc.Proofs.Code.Placing
import CodeReloc.Proofs.Stream.Grammar

set_option autoImplicit false

/-!
# What a verification finds

A record is consistent with the heap when its demand is met (`Record.Consistent`): a pointer leads
to an object, a call to the first instruction of a code object, an internal reference stays inside
the code object around it, an age sequence is young or calls code. All other modes demand nothing. A
demand can be missed in one of eight ways, and `Record.Violates` says which of them counts where
several apply.

A verification goes through the records of code in the order of their walk. It answers, names the
violation of the first record that is not consistent, and comes to its end without one exactly when
there is no such record. It never takes a jump for a record, whatever the bytes of the stream are.

Main statements: `verify_iff` and `verify_ne_jumpYielded`.
-/

namespace CodeReloc

/-! ## Demands -/

/-- The place that an inconsistency names. -/
def Inconsistency.pc : Inconsistency → UInt64
  | nullTarget pc _ | notHeapObject pc _ _ | codeObjectNotFound pc _ | notInstructionStart pc _ _
  | hostCodeNotFound pc | internalReferenceOutOfRange pc _ _ _ | codeAgeStubNotCode pc => pc

theorem Region.reaches_iff {code : Region} {address : UInt64} :
    code.reaches address = true ↔ code.start ≤ address ∧ address ≤ code.stop := by
  rw [reaches, Bool.and_eq_true, decide_eq_true_eq, decide_eq_true_eq]

theorem Region.reaches_eq_false_iff {code : Region} {address : UInt64} :
    code.reaches address = false ↔ address < code.start ∨ code.stop < address := by
  rw [← Bool.not_eq_true, reaches_iff, Decidable.not_and_iff_or_not, UInt64.not_le, UInt64.not_le]

namespace Record

/-- The record is a pointer into the heap, to a given target. -/
def PointsTo (host : Host) (r : Record) (target : UInt64) : Prop :=
  r.mode = .embeddedObject ∧ target = host.objectTarget r ∨
    r.mode = .cell ∧ target = host.cellTarget r

/-- The record is a call of other code. -/
def IsCall (r : Record) : Prop :=
  r.mode = .codeTarget ∨ r.mode = .codeTargetWithId ∨ r.mode = .constructCall ∨
    r.mode = .debuggerStatement

/-- The record is a reference into the code that it lies in. -/
def IsInternal (r : Record) : Prop :=
  r.mode = .internalReference ∨ r.mode = .internalReferenceEncoded

/-- The demand of the record is met. -/
structure Consistent (host : Host) (r : Record) : Prop where
  pointer : ∀ target, r.PointsTo host target → target ≠ 0 ∧ host.isObject target = true
  call : r.IsCall → host.callTarget r ≠ 0 ∧
    ∃ code, host.codeAround (host.callTarget r) = some code ∧ code.start = host.callTarget r
  /-- The end of the code object belongs to it. -/
  internal : r.IsInternal → ∃ code, host.codeAround r.pc = some code ∧
    code.start ≤ host.internalTarget r ∧ host.internalTarget r ≤ code.stop
  age : r.mode = .codeAgeSequence → host.isYoung r.pc = true ∨ host.stubIsCode r.pc = true

/-- The ways in which the demand of a record is missed. -/
inductive Violates (host : Host) (r : Record) : Inconsistency → Prop where
  | nullPointer (h : r.PointsTo host 0) : Violates host r (.nullTarget r.pc r.mode)
  | noObject {target : UInt64} (h : r.PointsTo host target) (hnull : target ≠ 0)
      (hobject : host.isObject target = false) :
      Violates host r (.notHeapObject r.pc r.mode target)
  | nullCall (h : r.IsCall) (hnull : host.callTarget r = 0) :
      Violates host r (.nullTarget r.pc r.mode)
  | noCode (h : r.IsCall) (hnull : host.callTarget r ≠ 0)
      (hcode : host.codeAround (host.callTarget r) = none) :
      Violates host r (.codeObjectNotFound r.pc (host.callTarget r))
  | notStart {code : Region} (h : r.IsCall) (hnull : host.callTarget r ≠ 0)
      (hcode : host.codeAround (host.callTarget r) = some code)
      (hstart : code.start ≠ host.callTarget r) :
      Violates host r (.notInstructionStart r.pc (host.callTarget r) code.start)
  | outsideCode (h : r.IsInternal) (hcode : host.codeAround r.pc = none) :
      Violates host r (.hostCodeNotFound r.pc)
  | outOfRange {code : Region} (h : r.IsInternal) (hcode : host.codeAround r.pc = some code)
      (hrange : host.internalTarget r < code.start ∨ code.stop < host.internalTarget r) :
      Violates host r
        (.internalReferenceOutOfRange r.pc (host.internalTarget r) code.start code.stop)
  | oldAge (h : r.mode = .codeAgeSequence) (hyoung : host.isYoung r.pc = false)
      (hstub : host.stubIsCode r.pc = false) : Violates host r (.codeAgeStubNotCode r.pc)

variable {host : Host} {r : Record} {i : Inconsistency}

theorem Violates.pc_eq (h : r.Violates host i) : i.pc = r.pc := by
  cases h <;> rfl

/-- A record whose demand is missed is not consistent. -/
theorem Violates.not_consistent (h : r.Violates host i) : ¬ r.Consistent host := by
  intro hr
  cases h with
  | nullPointer h => exact (hr.pointer 0 h).1 rfl
  | noObject h hnull hobject =>
    rw [(hr.pointer _ h).2] at hobject
    cases hobject
  | nullCall h hnull => exact (hr.call h).1 hnull
  | noCode h hnull hcode =>
    obtain ⟨-, code, hfound, -⟩ := hr.call h
    rw [hcode] at hfound
    cases hfound
  | notStart h hnull hcode hstart =>
    obtain ⟨-, code, hfound, hsame⟩ := hr.call h
    cases hcode.symm.trans hfound
    exact hstart hsame
  | outsideCode h hcode =>
    obtain ⟨code, hfound, -⟩ := hr.internal h
    rw [hcode] at hfound
    cases hfound
  | outOfRange h hcode hrange =>
    obtain ⟨code, hfound, hlow, hhigh⟩ := hr.internal h
    cases hcode.symm.trans hfound
    rcases hrange with hrange | hrange
    · exact UInt64.not_lt.2 hlow hrange
    · exact UInt64.not_lt.2 hhigh hrange
  | oldAge h hyoung hstub =>
    rcases hr.age h with hmet | hmet
    · rw [hyoung] at hmet
      cases hmet
    · rw [hstub] at hmet
      cases hmet

/-! ## One record -/

theorem check_pointer {target : UInt64} (h : r.PointsTo host target) :
    r.check host = .ok (r.checkPointer host target) := by
  rcases h with ⟨hmode, rfl⟩ | ⟨hmode, rfl⟩
  · rw [check, hmode]
  · rw [check, hmode]

theorem check_call (h : r.IsCall) : r.check host = .ok (r.checkCodeTarget host) := by
  rcases h with hmode | hmode | hmode | hmode
  all_goals rw [check, hmode]

theorem check_internal (h : r.IsInternal) : r.check host = .ok (r.checkInternal host) := by
  rcases h with hmode | hmode
  all_goals rw [check, hmode]

theorem check_age (h : r.mode = .codeAgeSequence) : r.check host = .ok (r.checkAge host) := by
  rw [check, h]

/-- No record is of two kinds, so one is consistent as soon as the demand of its own kind is met. -/
theorem Consistent.of_pointer {target : UInt64} (h : r.PointsTo host target) (hnull : target ≠ 0)
    (hobject : host.isObject target = true) : r.Consistent host := by
  rcases h with ⟨hmode, rfl⟩ | ⟨hmode, rfl⟩
  · refine ⟨?_, by simp [IsCall, hmode], by simp [IsInternal, hmode], by simp [hmode]⟩
    rintro target (⟨-, rfl⟩ | ⟨hcell, -⟩)
    · exact ⟨hnull, hobject⟩
    · rw [hmode] at hcell
      cases hcell
  · refine ⟨?_, by simp [IsCall, hmode], by simp [IsInternal, hmode], by simp [hmode]⟩
    rintro target (⟨hembedded, -⟩ | ⟨-, rfl⟩)
    · rw [hmode] at hembedded
      cases hembedded
    · exact ⟨hnull, hobject⟩

theorem Consistent.of_call {code : Region} (h : r.IsCall) (hnull : host.callTarget r ≠ 0)
    (hcode : host.codeAround (host.callTarget r) = some code)
    (hstart : code.start = host.callTarget r) : r.Consistent host := by
  refine ⟨?_, fun _ => ⟨hnull, code, hcode, hstart⟩, ?_, ?_⟩
  · rintro target (⟨hmode, -⟩ | ⟨hmode, -⟩)
    all_goals simp [IsCall, hmode] at h
  · rintro (hmode | hmode)
    all_goals simp [IsCall, hmode] at h
  · intro hmode
    simp [IsCall, hmode] at h

theorem Consistent.of_internal {code : Region} (h : r.IsInternal)
    (hcode : host.codeAround r.pc = some code) (hlow : code.start ≤ host.internalTarget r)
    (hhigh : host.internalTarget r ≤ code.stop) : r.Consistent host := by
  refine ⟨?_, ?_, fun _ => ⟨code, hcode, hlow, hhigh⟩, ?_⟩
  · rintro target (⟨hmode, -⟩ | ⟨hmode, -⟩)
    all_goals simp [IsInternal, hmode] at h
  · rintro (hmode | hmode | hmode | hmode)
    all_goals simp [IsInternal, hmode] at h
  · intro hmode
    simp [IsInternal, hmode] at h

theorem Consistent.of_age (h : r.mode = .codeAgeSequence)
    (hmet : host.isYoung r.pc = true ∨ host.stubIsCode r.pc = true) : r.Consistent host :=
  ⟨by simp [PointsTo, h], by simp [IsCall, h], by simp [IsInternal, h], fun _ => hmet⟩

/-- An answer about one record: nothing if its demand is met, else how it is missed. -/
inductive Judged (host : Host) (r : Record) : Option Inconsistency → Prop where
  | met (h : r.Consistent host) : Judged host r none
  | missed {i : Inconsistency} (h : r.Violates host i) : Judged host r (some i)

theorem judged_pointer {target : UInt64} (h : r.PointsTo host target) :
    Judged host r (r.checkPointer host target) := by
  unfold checkPointer
  split
  · rename_i hnull
    subst hnull
    exact .missed (.nullPointer h)
  · rename_i hnull
    split
    · rename_i hobject
      exact .met (.of_pointer h hnull hobject)
    · rename_i hobject
      exact .missed (.noObject h hnull (Bool.eq_false_iff.2 hobject))

theorem judged_call (h : r.IsCall) : Judged host r (r.checkCodeTarget host) := by
  simp only [checkCodeTarget]
  split
  · rename_i hnull
    exact .missed (.nullCall h hnull)
  · rename_i hnull
    split
    · rename_i hcode
      exact .missed (.noCode h hnull hcode)
    · rename_i code hcode
      split
      · rename_i hstart
        exact .met (.of_call h hnull hcode hstart)
      · rename_i hstart
        exact .missed (.notStart h hnull hcode hstart)

theorem judged_internal (h : r.IsInternal) : Judged host r (r.checkInternal host) := by
  simp only [checkInternal]
  split
  · rename_i hcode
    exact .missed (.outsideCode h hcode)
  · rename_i code hcode
    split
    · rename_i hrange
      obtain ⟨hlow, hhigh⟩ := Region.reaches_iff.1 hrange
      exact .met (.of_internal h hcode hlow hhigh)
    · rename_i hrange
      have houtside := Region.reaches_eq_false_iff.1 (Bool.eq_false_iff.2 hrange)
      exact .missed (.outOfRange h hcode houtside)

theorem judged_age (h : r.mode = .codeAgeSequence) : Judged host r (r.checkAge host) := by
  unfold checkAge
  split
  · rename_i hmet
    exact .met (.of_age h (Bool.or_eq_true_iff.1 hmet))
  · rename_i hmissed
    obtain ⟨hyoung, hstub⟩ := Bool.or_eq_false_iff.1 (Bool.eq_false_iff.2 hmissed)
    exact .missed (.oldAge h hyoung hstub)

/-- **Every record but a jump is judged.** -/
theorem check_judged (host : Host) (hmode : r.mode ≠ .pcJump) :
    ∃ answer, r.check host = .ok answer ∧ Judged host r answer := by
  obtain ⟨pc, mode, data⟩ := r
  cases mode
  case embeddedObject => exact ⟨_, rfl, judged_pointer (Or.inl ⟨rfl, rfl⟩)⟩
  case cell => exact ⟨_, rfl, judged_pointer (Or.inr ⟨rfl, rfl⟩)⟩
  case codeTarget | codeTargetWithId | constructCall | debuggerStatement =>
    exact ⟨_, rfl, judged_call (by simp [IsCall])⟩
  case internalReference | internalReferenceEncoded =>
    exact ⟨_, rfl, judged_internal (by simp [IsInternal])⟩
  case codeAgeSequence => exact ⟨_, rfl, judged_age rfl⟩
  case pcJump => exact absurd rfl hmode
  -- the modes that are left demand nothing
  all_goals
    exact ⟨none, rfl, .met ⟨by simp [PointsTo], by simp [IsCall], by simp [IsInternal], by simp⟩⟩

/-- A demand that is missed is named, with the reason that counts. -/
theorem check_of_violates (h : r.Violates host i) : r.check host = .ok (some i) := by
  cases h with
  | nullPointer h => rw [check_pointer h, checkPointer, if_pos rfl]
  | noObject h hnull hobject =>
    rw [check_pointer h, checkPointer, if_neg hnull, hobject, if_neg Bool.false_ne_true]
  | nullCall h hnull => simp only [check_call h, checkCodeTarget, if_pos hnull]
  | noCode h hnull hcode => simp only [check_call h, checkCodeTarget, if_neg hnull, hcode]
  | notStart h hnull hcode hstart =>
    simp only [check_call h, checkCodeTarget, if_neg hnull, hcode, if_neg hstart]
  | outsideCode h hcode => simp only [check_internal h, checkInternal, hcode]
  | outOfRange h hcode hrange =>
    have hreaches := Region.reaches_eq_false_iff.2 hrange
    simp only [check_internal h, checkInternal, hcode, hreaches, if_neg Bool.false_ne_true]
  | oldAge h hyoung hstub =>
    rw [check_age h, checkAge, hyoung, hstub]
    rfl

/-- **A record passes exactly when it is consistent.** -/
theorem check_eq_none_iff (hmode : r.mode ≠ .pcJump) :
    r.check host = .ok none ↔ r.Consistent host := by
  obtain ⟨answer, hanswer, hjudged⟩ := check_judged host hmode
  rw [hanswer]
  cases hjudged with
  | met h => exact iff_of_true rfl h
  | missed h => exact iff_of_false nofun h.not_consistent

/-! ## Records in their order -/

variable {records : List Record}

/-- Records that are consistent are passed over. -/
theorem checkAll_append {before : List Record} (hmodes : ∀ r ∈ before, r.mode ≠ .pcJump)
    (hbefore : ∀ r ∈ before, r.Consistent host) (rest : List Record) :
    checkAll host (before ++ rest) = checkAll host rest := by
  induction before with
  | nil => rfl
  | cons r before ih =>
    rw [List.forall_mem_cons] at hmodes hbefore
    rw [List.cons_append, checkAll, (check_eq_none_iff hmodes.1).2 hbefore.1]
    exact ih hmodes.2 hbefore.2

/-- **Records pass one after the other until one of them is not consistent.** -/
theorem checkAll_cases (host : Host) (hmodes : ∀ r ∈ records, r.mode ≠ .pcJump) :
    (checkAll host records = .ok none ∧ ∀ r ∈ records, r.Consistent host) ∨
      ∃ before r after i, records = before ++ r :: after ∧ (∀ b ∈ before, b.Consistent host) ∧
        r.Violates host i ∧ checkAll host records = .ok (some i) := by
  induction records with
  | nil => exact Or.inl ⟨rfl, by simp⟩
  | cons r records ih =>
    rw [List.forall_mem_cons] at hmodes
    obtain ⟨answer, hanswer, hjudged⟩ := check_judged host hmodes.1
    cases hjudged with
    | missed h =>
      refine Or.inr ⟨[], r, records, _, rfl, by simp, h, ?_⟩
      rw [checkAll, hanswer]
      rfl
    | met h =>
      have hnext : checkAll host (r :: records) = checkAll host records := by
        rw [checkAll, hanswer]
        rfl
      rw [hnext]
      rcases ih hmodes.2 with ⟨hnone, hall⟩ | ⟨before, s, after, i, rfl, hbefore, hs, hsome⟩
      · exact Or.inl ⟨hnone, List.forall_mem_cons.2 ⟨h, hall⟩⟩
      · exact Or.inr ⟨r :: before, s, after, i, rfl, List.forall_mem_cons.2 ⟨h, hbefore⟩, hs, hsome⟩

theorem checkAll_eq_none_iff (hmodes : ∀ r ∈ records, r.mode ≠ .pcJump) :
    checkAll host records = .ok none ↔ ∀ r ∈ records, r.Consistent host := by
  rcases checkAll_cases host hmodes with
    ⟨hnone, hall⟩ | ⟨before, r, after, i, rfl, -, hr, hsome⟩
  · exact iff_of_true hnone hall
  · refine iff_of_false (by simp [hsome]) fun hall => ?_
    exact hr.not_consistent (hall r (by simp))

theorem checkAll_eq_some_iff (hmodes : ∀ r ∈ records, r.mode ≠ .pcJump) :
    checkAll host records = .ok (some i) ↔
      ∃ before r after, records = before ++ r :: after ∧ (∀ b ∈ before, b.Consistent host) ∧
        r.Violates host i := by
  constructor
  · intro h
    rcases checkAll_cases host hmodes with
      ⟨hnone, -⟩ | ⟨before, r, after, j, hrecords, hbefore, hr, hsome⟩
    · rw [hnone] at h
      cases h
    · cases h.symm.trans hsome
      exact ⟨before, r, after, hrecords, hbefore, hr⟩
  · rintro ⟨before, r, after, rfl, hbefore, hr⟩
    have hpassed : ∀ b ∈ before, b.mode ≠ .pcJump := fun b hb =>
      hmodes b (List.mem_append_left _ hb)
    rw [checkAll_append hpassed hbefore, checkAll, check_of_violates hr]
    rfl

theorem checkAll_ne_error (hmodes : ∀ r ∈ records, r.mode ≠ .pcJump) (fault : Fault) :
    checkAll host records ≠ .error fault := by
  rcases checkAll_cases host hmodes with ⟨hnone, -⟩ | ⟨-, -, -, i, -, -, -, hsome⟩
  · simp [hnone]
  · simp [hsome]

end Record

/-! ## Code -/

namespace Code

/-- The records of code: those of its stream, each at its address, and behind them that of an old
age sequence. -/
def records (c : Code) : List Record :=
  (walkStream c.stream c.base .all none).records.toList ++
    (c.age.bind (CodeAge.record c.base .all)).toList

variable {c : Code} {host : Host}

/-- A walk of everything in code lists its records, if its stream can be read. -/
theorem walk_all (hage : ∀ a ∈ c.age, c.base.toNat + a.offset < 2 ^ 64)
    (hstream : (walkStream c.stream c.base .all none).stopped = none) :
    c.walk .all = ⟨c.records.toArray, none⟩ := by
  have hall : Mask.all.isEmpty = false := by decide
  obtain ⟨address, haddress, hclosing⟩ := closing_age .all hage
  have hbytes := toTrace_walkStream c.stream c.base hall
  apply Walk.toTrace_injective
  rw [walk_eq_walkStream haddress, toTrace_walkStream_age _ _ _ hall, hclosing, ← hbytes,
    Trace.closedBy]
  simp [Walk.toTrace, hstream, records]

/-- No walk of code stands on a jump. -/
theorem walk_mode_ne_pcJump (c : Code) (mask : Mask) :
    ∀ r ∈ (c.walk mask).records, r.mode ≠ .pcJump := by
  intro r hr
  rw [walk, reader] at hr
  cases haddress : c.ageAddress with
  | error fault =>
    rw [haddress] at hr
    simp [bind, Except.bind] at hr
  | ok address =>
    rw [haddress] at hr
    exact walkStream_mode_ne_pcJump c.stream c.base mask _ hr

/-- No walk of code ends in taking a jump for a record. -/
theorem stopped_walk_ne_jumpYielded (c : Code) :
    (c.walk .all).stopped ≠ some .jumpYielded := by
  cases haddress : c.ageAddress with
  | error fault =>
    have hbreach : fault = .breach := by
      rw [ageAddress] at haddress
      split at haddress
      · cases haddress
      · rename_i age _
        cases hplace : pcAfter c.base age.offset with
        | ok address =>
          rw [hplace] at haddress
          cases haddress
        | error other =>
          rw [hplace] at haddress
          cases haddress
          exact (pcAfter_eq_error.1 hplace).2
    rw [walk, reader, haddress, hbreach]
    simp [bind, Except.bind]
  | ok address =>
    have hstopped : (c.walk .all).stopped =
        (Cursor.trace .all ⟨(bytesOf c.stream).reverse, c.base, 0, 0⟩).stopped := by
      rw [walk_eq_walkStream haddress]
      exact congrArg Trace.stopped (toTrace_walkStream_age c.stream c.base _ (by decide))
    have hending := Cursor.trace_ending ⟨(bytesOf c.stream).reverse, c.base, 0, 0⟩
    rw [← hstopped] at hending
    intro hjump
    rw [hjump] at hending
    cases hending

theorem mem_records_of_delivered {w : Walk} {r : Record} (h : r ∈ w.delivered) :
    r ∈ w.records := by
  unfold Walk.delivered at h
  split at h
  · exact Array.mem_toList_iff.1 h
  · exact Array.mem_toList_iff.1 (List.dropLast_subset _ h)

/-- A verification of code whose stream can be read looks at all records. -/
theorem verify_eq_checkAll (hage : ∀ a ∈ c.age, c.base.toNat + a.offset < 2 ^ 64)
    (hstream : (walkStream c.stream c.base .all none).stopped = none) :
    c.verify host = Record.checkAll host c.records := by
  simp only [verify, walk_all hage hstream, Walk.delivered]
  cases Record.checkAll host c.records with
  | error fault => rfl
  | ok answer => cases answer <;> rfl

/-- **Whatever the bytes of its stream are, no verification takes a jump for a record.** -/
theorem verify_ne_jumpYielded (c : Code) (host : Host) : c.verify host ≠ .error .jumpYielded := by
  have hmodes : ∀ r ∈ (c.walk .all).delivered, r.mode ≠ .pcJump := fun r hr =>
    c.walk_mode_ne_pcJump .all r (mem_records_of_delivered hr)
  have hstopped := c.stopped_walk_ne_jumpYielded
  simp only [verify]
  rcases Record.checkAll_cases host hmodes with ⟨hnone, -⟩ | ⟨-, -, -, i, -, -, -, hsome⟩
  · rw [hnone]
    -- the records are consistent, so only the end of the walk can be a fault
    cases hend : (c.walk .all).stopped with
    | none => exact nofun
    | some fault =>
      rw [hend] at hstopped
      intro hthrown
      cases hthrown
      exact hstopped rfl
  · rw [hsome]
    exact nofun

end Code

/-- **A verification answers with the first violation.** Of code whose stream can be read, with an
age sequence or without one, and for any host, it comes to its end without a violation exactly when
every record is consistent at its address. Otherwise it names the violation of the first record that
is not, with the place of that record. It is never a fault. -/
theorem verify_iff (c : Code) (host : Host)
    (hage : ∀ a ∈ c.age, c.base.toNat + a.offset < 2 ^ 64)
    (hstream : (walkStream c.stream c.base .all none).stopped = none) :
    c.walk .all = ⟨c.records.toArray, none⟩ ∧
      (c.verify host = .ok none ↔ ∀ r ∈ c.records, r.Consistent host) ∧
      (∀ i, c.verify host = .ok (some i) ↔
        ∃ before r after, c.records = before ++ r :: after ∧
          (∀ b ∈ before, b.Consistent host) ∧ ¬ r.Consistent host ∧ r.Violates host i ∧
          i.pc = r.pc) ∧
      ∀ fault, c.verify host ≠ .error fault := by
  have hwalk := Code.walk_all hage hstream
  have hmodes : ∀ r ∈ c.records, r.mode ≠ .pcJump := by
    intro r hr
    refine c.walk_mode_ne_pcJump .all r ?_
    rw [hwalk]
    exact List.mem_toArray.2 hr
  rw [Code.verify_eq_checkAll hage hstream]
  refine ⟨hwalk, Record.checkAll_eq_none_iff hmodes, fun i => ?_, Record.checkAll_ne_error hmodes⟩
  rw [Record.checkAll_eq_some_iff hmodes]
  constructor
  · rintro ⟨before, r, after, hrecords, hbefore, hr⟩
    exact ⟨before, r, after, hrecords, hbefore, hr.not_consistent, hr, hr.pc_eq⟩
  · rintro ⟨before, r, after, hrecords, hbefore, -, hr, -⟩
    exact ⟨before, r, after, hrecords, hbefore, hr⟩

/-- A heap of one object and one code object, which lies around every address. All internal
references lead to one place, and nothing else is known. -/
def Host.tiny (object : UInt64) (code : Region) (target : UInt64) : Host where
  callTarget := fun _ => 0
  objectTarget := fun _ => object
  cellTarget := fun _ => 0
  internalTarget := fun _ => target
  externalTarget := fun _ => 0
  codeAround := fun _ => some code
  isObject := fun address => address == object
  isYoung := fun _ => false
  stubIsCode := fun _ => false
  kindOfCode := fun _ => none
  objectText := fun _ => ""
  referenceName := fun _ => none
  reasonName := fun _ => none
  bailoutId := fun _ => none

/-- An object, a reference that points behind the end of its code, and an old age sequence that
calls no code. The object is in place, so the reference is named. -/
theorem verify_iff_outOfRange :
    (∀ a ∈ (some ⟨2, false⟩ : Option CodeAge), (4096 : UInt64).toNat + a.offset < 2 ^ 64) ∧
      (walkStream ⟨#[4, 63, 0]⟩ 4096 .all none).stopped = none ∧
      Code.records ⟨4096, copies 8 0, ⟨#[4, 63, 0]⟩, #[], some ⟨2, false⟩⟩ =
        [⟨4096, .embeddedObject, 0⟩, ⟨4100, .internalReference, 0⟩,
          ⟨4098, .codeAgeSequence, 0⟩] ∧
      Code.verify ⟨4096, copies 8 0, ⟨#[4, 63, 0]⟩, #[], some ⟨2, false⟩⟩
          (.tiny 64 ⟨4096, 4104⟩ 4105) =
        .ok (some (.internalReferenceOutOfRange 4100 4105 4096 4104)) := by
  have hage : ∀ a ∈ (some ⟨2, false⟩ : Option CodeAge),
      (4096 : UInt64).toNat + a.offset < 2 ^ 64 := by
    intro a ha
    cases ha
    decide
  have hstream : (walkStream ⟨#[4, 63, 0]⟩ 4096 .all none).stopped = none := by decide +kernel
  have hrecords : Code.records ⟨4096, copies 8 0, ⟨#[4, 63, 0]⟩, #[], some ⟨2, false⟩⟩ =
      [⟨4096, .embeddedObject, 0⟩, ⟨4100, .internalReference, 0⟩, ⟨4098, .codeAgeSequence, 0⟩] := by
    decide +kernel
  refine ⟨hage, hstream, hrecords, ?_⟩
  refine ((verify_iff _ _ hage hstream).2.2.1 _).2
    ⟨[⟨4096, .embeddedObject, 0⟩], ⟨4100, .internalReference, 0⟩, [⟨4098, .codeAgeSequence, 0⟩],
      hrecords, ?_, ?_⟩
  · intro b hb
    rw [List.mem_singleton.1 hb]
    exact .of_pointer (Or.inl ⟨rfl, rfl⟩) (by decide) rfl
  · have hmissed : Record.Violates (.tiny 64 ⟨4096, 4104⟩ 4105) ⟨4100, .internalReference, 0⟩
        (.internalReferenceOutOfRange 4100 4105 4096 4104) :=
      @Record.Violates.outOfRange _ ⟨4100, .internalReference, 0⟩ ⟨4096, 4104⟩ (Or.inl rfl) rfl
        (Or.inr (by decide))
    exact ⟨hmissed.not_consistent, hmissed, rfl⟩

end CodeReloc
