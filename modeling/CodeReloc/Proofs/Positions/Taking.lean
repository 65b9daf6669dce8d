import Mathlib.Data.List.Induction
import CodeReloc.Positions

set_option autoImplicit false

/-!
# Taking announced positions

A recorder is asked three things: to remember a position, to remember a statement position, and to
hand over the records that are missing. `Request` lists them, and `Positions.answerAll` answers
requests one after the other and keeps the records that were handed over.

A position that was announced is never negative. But a statement position that is handed over counts
as a written position, and where no position has been announced so far, the placeholder for it then
differs from what is written and is handed over as well. This happens the first time that records
are taken after a statement position has been announced and before a position has been. Every
position that is handed over is known exactly if there is no such time (`Prepared`).

Main statements: `Positions.answerAll_of_isAllowed`, `Positions.placeholder_taken_iff` and
`Positions.taken_nonneg_iff`.
-/

namespace CodeReloc

namespace Positions

/-- What a recorder is asked. -/
inductive Request where
  | announce (position : Int32)
  | announceStatement (position : Int32)
  | take
  deriving DecidableEq, Repr

/-- A position that is announced must not be negative. -/
def Request.isAllowed : Request → Bool
  | announce position | announceStatement position => 0 ≤ position
  | take => true

/-- The records that are handed over, and the state after it. -/
def answer (p : Positions) : Request → Except Fault (List (Mode × Int32) × Positions)
  | .announce position => do
    let p ← p.announce position
    return ([], p)
  | .announceStatement position => do
    let p ← p.announceStatement position
    return ([], p)
  | .take => return p.takeMissing

/-- All records that are handed over, and the state at the end. -/
def answerAll (p : Positions) : List Request → Except Fault (List (Mode × Int32) × Positions)
  | [] => return ([], p)
  | request :: requests => do
    let (taken, p) ← p.answer request
    let (more, p) ← p.answerAll requests
    return (taken ++ more, p)

/-! ## One request -/

/-- The ways in which a request is answered. -/
inductive Answers (p : Positions) : Request → List (Mode × Int32) → Positions → Prop where
  | announce (position : Int32) (h : 0 ≤ position) :
      Answers p (.announce position) [] { p with current := position }
  | announceStatement (position : Int32) (h : 0 ≤ position) :
      Answers p (.announceStatement position) [] { p with currentStatement := position }
  | take : Answers p .take p.takeMissing.1 p.takeMissing.2

variable {p q : Positions} {request : Request} {requests : List Request}
variable {taken : List (Mode × Int32)}

theorem answer_eq_ok : p.answer request = .ok (taken, q) ↔ p.Answers request taken q := by
  constructor
  · intro h
    cases request with
    | announce position =>
      obtain ⟨mid, hannounce, h⟩ := bind_eq_ok.1 h
      obtain ⟨hallowed, hmid⟩ := require_bind_eq_ok.1 hannounce
      cases hmid
      cases h
      exact .announce position (of_decide_eq_true hallowed)
    | announceStatement position =>
      obtain ⟨mid, hannounce, h⟩ := bind_eq_ok.1 h
      obtain ⟨hallowed, hmid⟩ := require_bind_eq_ok.1 hannounce
      cases hmid
      cases h
      exact .announceStatement position (of_decide_eq_true hallowed)
    | take =>
      cases h
      exact .take
  · intro h
    cases h with
    | announce position h | announceStatement position h =>
      exact bind_eq_ok.2 ⟨_, require_bind_eq_ok.2 ⟨decide_eq_true h, rfl⟩, rfl⟩
    | take => rfl

theorem answer_of_isAllowed (p : Positions) (h : request.isAllowed = true) :
    ∃ taken q, p.answer request = .ok (taken, q) := by
  cases request with
  | announce position => exact ⟨_, _, answer_eq_ok.2 (.announce position (of_decide_eq_true h))⟩
  | announceStatement position =>
    exact ⟨_, _, answer_eq_ok.2 (.announceStatement position (of_decide_eq_true h))⟩
  | take => exact ⟨_, _, rfl⟩

/-! ## Requests one after the other -/

theorem answerAll_cons_eq_ok :
    p.answerAll (request :: requests) = .ok (taken, q) ↔
      ∃ first mid more, p.answer request = .ok (first, mid) ∧
        mid.answerAll requests = .ok (more, q) ∧ taken = first ++ more := by
  constructor
  · intro h
    obtain ⟨⟨first, mid⟩, hanswer, h⟩ := bind_eq_ok.1 h
    obtain ⟨⟨more, last⟩, hrest, h⟩ := bind_eq_ok.1 h
    cases h
    exact ⟨first, mid, more, hanswer, hrest, rfl⟩
  · rintro ⟨first, mid, more, hanswer, hrest, rfl⟩
    exact bind_eq_ok.2 ⟨_, hanswer, bind_eq_ok.2 ⟨_, hrest, rfl⟩⟩

theorem answerAll_append_eq_ok {later : List Request} :
    p.answerAll (requests ++ later) = .ok (taken, q) ↔
      ∃ first mid more, p.answerAll requests = .ok (first, mid) ∧
        mid.answerAll later = .ok (more, q) ∧ taken = first ++ more := by
  induction requests generalizing p taken with
  | nil =>
    constructor
    · intro h
      exact ⟨[], p, taken, rfl, h, rfl⟩
    · rintro ⟨first, mid, more, hfirst, hmore, rfl⟩
      cases hfirst
      exact hmore
  | cons request requests ih =>
    rw [List.cons_append, answerAll_cons_eq_ok]
    constructor
    · rintro ⟨first, mid, more, hanswer, hrest, rfl⟩
      obtain ⟨second, mid', last, hsecond, hlast, rfl⟩ := ih.1 hrest
      refine ⟨first ++ second, mid', last, ?_, hlast, (List.append_assoc _ _ _).symm⟩
      exact answerAll_cons_eq_ok.2 ⟨first, mid, second, hanswer, hsecond, rfl⟩
    · rintro ⟨first, mid, more, hfirst, hmore, rfl⟩
      obtain ⟨begin, mid', second, hbegin, hsecond, rfl⟩ := answerAll_cons_eq_ok.1 hfirst
      refine ⟨begin, mid', second ++ more, hbegin, ?_, List.append_assoc _ _ _⟩
      exact ih.2 ⟨second, mid, more, hsecond, hmore, rfl⟩

theorem answerAll_singleton_eq_ok :
    p.answerAll [request] = .ok (taken, q) ↔ p.Answers request taken q := by
  rw [answerAll_cons_eq_ok, ← answer_eq_ok]
  constructor
  · rintro ⟨first, mid, more, hanswer, hnone, rfl⟩
    cases hnone
    rw [List.append_nil]
    exact hanswer
  · intro h
    exact ⟨taken, q, [], h, rfl, (List.append_nil taken).symm⟩

/-- The last request is answered from the state that the others have led to. -/
theorem answerAll_concat_eq_ok :
    p.answerAll (requests ++ [request]) = .ok (taken, q) ↔
      ∃ before mid last, p.answerAll requests = .ok (before, mid) ∧
        mid.Answers request last q ∧ taken = before ++ last := by
  simp only [answerAll_append_eq_ok, answerAll_singleton_eq_ok]

/-- Requests are answered as long as no negative position is announced. -/
theorem answerAll_of_isAllowed (p : Positions) (h : ∀ request ∈ requests, request.isAllowed = true) :
    ∃ taken q, p.answerAll requests = .ok (taken, q) := by
  induction requests generalizing p with
  | nil => exact ⟨[], p, rfl⟩
  | cons request requests ih =>
    obtain ⟨first, mid, hanswer⟩ := p.answer_of_isAllowed (h request List.mem_cons_self)
    obtain ⟨more, q, hrest⟩ := ih mid fun other hother => h other (List.mem_cons_of_mem _ hother)
    exact ⟨first ++ more, q, answerAll_cons_eq_ok.2 ⟨first, mid, more, hanswer, hrest, rfl⟩⟩

/-! ## What is missing -/

/-- Afterwards nothing is missing. -/
theorem takeMissing_state (p : Positions) :
    p.takeMissing.2 = ⟨p.current, p.currentStatement, p.current, p.currentStatement⟩ := by
  obtain ⟨current, currentStatement, written, writtenStatement⟩ := p
  simp only [takeMissing, missingStatement]
  split <;> simp only [missingPosition] <;> split <;> simp_all [writeStatement, writePosition]

/-- A statement position is missing if it is not the last one that was written, and a position if it
is not the last one of either kind. -/
theorem mem_takeMissing_iff {p : Positions} {entry : Mode × Int32} :
    entry ∈ p.takeMissing.1 ↔
      entry = (.statementPosition, p.currentStatement) ∧
          p.currentStatement ≠ p.writtenStatement ∨
        entry = (.position, p.current) ∧
          p.current ≠
            if p.currentStatement = p.writtenStatement then p.written else p.currentStatement := by
  obtain ⟨current, currentStatement, written, writtenStatement⟩ := p
  simp only [takeMissing, missingStatement]
  split <;> simp only [missingPosition] <;> split <;> simp_all [writeStatement]

/-! ## What has been announced -/

/-- A position has been announced. -/
def Announced (requests : List Request) : Prop := ∃ position, .announce position ∈ requests

/-- A statement position has been announced. -/
def StatementAnnounced (requests : List Request) : Prop :=
  ∃ position, .announceStatement position ∈ requests

/-- Wherever records are taken after a statement position has been announced, a position has been
announced as well. -/
def Prepared (requests : List Request) : Prop :=
  ∀ before, before ++ [.take] <+: requests → StatementAnnounced before → Announced before

theorem announced_concat :
    Announced (requests ++ [request]) ↔
      Announced requests ∨ ∃ position, request = .announce position := by
  simp only [Announced, List.mem_append, List.mem_singleton, eq_comm (b := request), exists_or]

theorem statementAnnounced_concat :
    StatementAnnounced (requests ++ [request]) ↔
      StatementAnnounced requests ∨ ∃ position, request = .announceStatement position := by
  simp only [StatementAnnounced, List.mem_append, List.mem_singleton, eq_comm (b := request),
    exists_or]

theorem prepared_nil : Prepared [] := by
  intro before hbefore
  simp at hbefore

theorem prepared_concat :
    Prepared (requests ++ [request]) ↔
      Prepared requests ∧
        (request = .take → StatementAnnounced requests → Announced requests) := by
  simp only [Prepared, List.prefix_concat_iff, List.append_singleton_inj]
  constructor
  · intro h
    exact ⟨fun before hbefore => h before (Or.inr hbefore),
      fun htake => h requests (Or.inl ⟨rfl, htake.symm⟩)⟩
  · rintro ⟨hbefore, hlast⟩ before (⟨rfl, htake⟩ | hmem)
    · exact hlast htake.symm
    · exact hbefore before hmem

/-- What a recorder is left in by requests: a position is known once one has been announced, and
until then nothing counts as written, unless records were taken too early. -/
structure Knows (requests : List Request) (p : Positions) : Prop where
  current_nonneg : Announced requests → 0 ≤ p.current
  current_eq : ¬ Announced requests → p.current = noPosition
  statement_nonneg : StatementAnnounced requests → 0 ≤ p.currentStatement
  statement_eq : ¬ StatementAnnounced requests →
    p.currentStatement = noPosition ∧ p.writtenStatement = noPosition
  nothing_written : Prepared requests → ¬ Announced requests →
    p.written = noPosition ∧ p.writtenStatement = noPosition

/-- The placeholder is negative. -/
theorem ne_noPosition {position : Int32} (h : 0 ≤ position) : position ≠ noPosition := by
  rintro rfl
  exact absurd h (by decide)

namespace Knows

theorem start : Knows [] .start where
  current_nonneg := by rintro ⟨_, h⟩; cases h
  current_eq := fun _ => rfl
  statement_nonneg := by rintro ⟨_, h⟩; cases h
  statement_eq := fun _ => ⟨rfl, rfl⟩
  nothing_written := fun _ _ => ⟨rfl, rfl⟩

/-- **What is known after one more request.** -/
theorem step (h : Knows requests p) (hanswers : p.Answers request taken q) :
    Knows (requests ++ [request]) q := by
  cases hanswers with
  | announce position hallowed =>
    have hannounced : Announced (requests ++ [.announce position]) :=
      announced_concat.2 (Or.inr ⟨position, rfl⟩)
    constructor
    · exact fun _ => hallowed
    · exact absurd hannounced
    · simpa [statementAnnounced_concat] using h.statement_nonneg
    · simpa [statementAnnounced_concat] using h.statement_eq
    · exact fun _ => absurd hannounced
  | announceStatement position hallowed =>
    have hannounced : StatementAnnounced (requests ++ [.announceStatement position]) :=
      statementAnnounced_concat.2 (Or.inr ⟨position, rfl⟩)
    constructor
    · simpa [announced_concat] using h.current_nonneg
    · simpa [announced_concat] using h.current_eq
    · exact fun _ => hallowed
    · exact absurd hannounced
    · simpa [announced_concat, prepared_concat] using h.nothing_written
  | take =>
    rw [p.takeMissing_state]
    constructor
    · simpa [announced_concat] using h.current_nonneg
    · simpa [announced_concat] using h.current_eq
    · simpa [statementAnnounced_concat] using h.statement_nonneg
    · intro hnone
      rw [statementAnnounced_concat] at hnone
      have hstatement := (h.statement_eq fun hbefore => hnone (Or.inl hbefore)).1
      exact ⟨hstatement, hstatement⟩
    · -- without a position there was no statement position either, so nothing is written
      intro hprepared hnone
      rw [announced_concat] at hnone
      have hunknown : ¬ Announced requests := fun hbefore => hnone (Or.inl hbefore)
      have hnothing : ¬ StatementAnnounced requests := fun hbefore =>
        hunknown ((prepared_concat.1 hprepared).2 rfl hbefore)
      exact ⟨h.current_eq hunknown, (h.statement_eq hnothing).1⟩

/-- What is handed over is known, or is the placeholder for a position. -/
theorem taken_known (h : Knows requests p) {entry : Mode × Int32} (hentry : entry ∈ p.takeMissing.1) :
    0 ≤ entry.2 ∨ entry = (.position, noPosition) := by
  rcases mem_takeMissing_iff.1 hentry with ⟨rfl, hmissing⟩ | ⟨rfl, -⟩
  · left
    apply h.statement_nonneg
    by_contra hnone
    obtain ⟨hcurrent, hwritten⟩ := h.statement_eq hnone
    exact hmissing (hcurrent.trans hwritten.symm)
  · by_cases hannounced : Announced requests
    · exact Or.inl (h.current_nonneg hannounced)
    · exact Or.inr (congrArg (Prod.mk Mode.position) (h.current_eq hannounced))

/-- The placeholder is handed over where a statement position is announced and no position is, the
first time that records are taken there. -/
theorem placeholder_mem_iff (h : Knows requests p) (hprepared : Prepared requests) :
    (.position, noPosition) ∈ p.takeMissing.1 ↔
      StatementAnnounced requests ∧ ¬ Announced requests := by
  rw [mem_takeMissing_iff]
  constructor
  · rintro (⟨hother, -⟩ | ⟨hsame, hmissing⟩)
    · cases hother
    have hunknown : ¬ Announced requests := by
      intro hannounced
      exact ne_noPosition (h.current_nonneg hannounced) (congrArg Prod.snd hsame).symm
    refine ⟨?_, hunknown⟩
    by_contra hnone
    -- nothing was announced, so nothing is missing
    obtain ⟨hstatement, hwritten⟩ := h.statement_eq hnone
    rw [h.current_eq hunknown, hstatement, hwritten, if_pos rfl] at hmissing
    exact hmissing (h.nothing_written hprepared hunknown).1.symm
  · rintro ⟨hstatement, hunknown⟩
    have hknown := ne_noPosition (h.statement_nonneg hstatement)
    right
    rw [h.current_eq hunknown, (h.nothing_written hprepared hunknown).2, if_neg hknown]
    exact ⟨rfl, hknown.symm⟩

end Knows

/-! ## All requests -/

/-- What a recorder knows after requests. -/
theorem knows_of_answerAll (h : start.answerAll requests = .ok (taken, p)) : Knows requests p := by
  induction requests using List.reverseRecOn generalizing taken p with
  | nil =>
    cases h
    exact .start
  | append_singleton requests request ih =>
    obtain ⟨before, mid, last, hbefore, hanswers, -⟩ := answerAll_concat_eq_ok.1 h
    exact (ih hbefore).step hanswers

/-- Whatever is handed over is known, or is the placeholder for a position. -/
theorem taken_nonneg_or (h : start.answerAll requests = .ok (taken, p)) :
    ∀ entry ∈ taken, 0 ≤ entry.2 ∨ entry = (.position, noPosition) := by
  induction requests using List.reverseRecOn generalizing taken p with
  | nil =>
    cases h
    simp
  | append_singleton requests request ih =>
    obtain ⟨before, mid, last, hbefore, hanswers, rfl⟩ := answerAll_concat_eq_ok.1 h
    intro entry hentry
    rcases List.mem_append.1 hentry with hfirst | hlast
    · exact ih hbefore entry hfirst
    · cases hanswers with
      | announce | announceStatement => cases hlast
      | take => exact (knows_of_answerAll hbefore).taken_known hlast

/-- **The placeholder is handed over exactly if records are ever taken after a statement position has
been announced and before a position has been.** -/
theorem placeholder_taken_iff (h : start.answerAll requests = .ok (taken, p)) :
    (.position, noPosition) ∈ taken ↔ ¬ Prepared requests := by
  induction requests using List.reverseRecOn generalizing taken p with
  | nil =>
    cases h
    simp [prepared_nil]
  | append_singleton requests request ih =>
    obtain ⟨before, mid, last, hbefore, hanswers, rfl⟩ := answerAll_concat_eq_ok.1 h
    have hknows := knows_of_answerAll hbefore
    rw [List.mem_append, ih hbefore, prepared_concat, not_and_or]
    -- the last request adds to it only if nothing has gone wrong before
    by_cases hprepared : Prepared requests
    · have hlast : (.position, noPosition) ∈ last ↔
          ¬ (request = .take → StatementAnnounced requests → Announced requests) := by
        cases hanswers with
        | announce | announceStatement => simp
        | take => simpa using hknows.placeholder_mem_iff hprepared
      rw [hlast]
    · simp [hprepared]

/-- Every position that is handed over is known exactly if records are never taken too early. -/
theorem taken_nonneg_iff (h : start.answerAll requests = .ok (taken, p)) :
    (∀ entry ∈ taken, 0 ≤ entry.2) ↔ Prepared requests := by
  constructor
  · intro hnonneg
    by_contra hprepared
    have hplaceholder := hnonneg _ ((placeholder_taken_iff h).2 hprepared)
    exact absurd hplaceholder (by decide)
  · intro hprepared entry hentry
    rcases taken_nonneg_or h entry hentry with hknown | rfl
    · exact hknown
    · exact absurd hprepared ((placeholder_taken_iff h).1 hentry)

end Positions

end CodeReloc
