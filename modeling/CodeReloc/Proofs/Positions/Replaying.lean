import CodeReloc.Proofs.Positions.Taking

set_option autoImplicit false

/-!
# Replaying what a recorder hands over

A reader of the records that a recorder hands over remembers two values: that of the last record of
either kind, and that of the last statement position (`Positions.Seen`). A recorder hands over just
enough for this. What counts as written is at any time what the reader has seen, and after records
have been taken it is what has been announced. So nothing is handed over exactly where the reader
knows both values already.

Main statement: `Positions.replayed_of_take`.
-/

namespace CodeReloc

namespace Positions

/-! ## A reader of positions -/

/-- The value of the last record of a kind, or what was known before where there is none. -/
def lastValue (kind : Mode → Bool) (before : Int32) (records : List (Mode × Int32)) : Int32 :=
  ((records.filter fun entry => kind entry.1).getLast?.map Prod.snd).getD before

theorem lastValue_append (kind : Mode → Bool) (before : Int32)
    (records more : List (Mode × Int32)) :
    lastValue kind before (records ++ more) =
      lastValue kind (lastValue kind before records) more := by
  simp only [lastValue, List.filter_append, List.getLast?_append, Option.map_or, Option.getD_or]

/-- What a reader has seen last: a position of either kind, and a statement position. -/
structure Seen where
  position : Int32
  statement : Int32
  deriving DecidableEq

namespace Seen

/-- Before the first record. -/
def nothing : Seen := ⟨noPosition, noPosition⟩

/-- What has been seen after more records. -/
def read (s : Seen) (records : List (Mode × Int32)) : Seen where
  position := lastValue Mode.isPosition s.position records
  statement := lastValue (· == .statementPosition) s.statement records

@[simp] theorem read_nil (s : Seen) : s.read [] = s := rfl

theorem read_append (s : Seen) (records more : List (Mode × Int32)) :
    s.read (records ++ more) = (s.read records).read more := by
  simp only [read, lastValue_append]

theorem read_statement (s : Seen) (position : Int32) :
    s.read [(.statementPosition, position)] = ⟨position, position⟩ := rfl

theorem read_position (s : Seen) (position : Int32) :
    s.read [(.position, position)] = ⟨position, s.statement⟩ := rfl

/-- What a recorder takes for written. -/
def written (p : Positions) : Seen := ⟨p.written, p.writtenStatement⟩

/-- What has been announced to a recorder. -/
def announced (p : Positions) : Seen := ⟨p.current, p.currentStatement⟩

end Seen

variable {p q : Positions} {request : Request} {requests : List Request}
variable {taken : List (Mode × Int32)}

/-! ## One taking -/

/-- A statement position that is missing is read as a position too. -/
theorem read_missingStatement (p : Positions) :
    (Seen.written p).read p.missingStatement.1 = .written p.missingStatement.2 ∧
      p.missingStatement.2.writtenStatement = p.currentStatement ∧
        Seen.announced p.missingStatement.2 = .announced p := by
  rw [missingStatement]
  split
  · rename_i hsame
    exact ⟨rfl, hsame.symm, rfl⟩
  · exact ⟨Seen.read_statement _ _, rfl, rfl⟩

/-- Once the statement position is written, the position is all that can be missing. -/
theorem read_missingPosition (p : Positions) :
    (Seen.written p).read p.missingPosition.1 = ⟨p.current, p.writtenStatement⟩ := by
  rw [missingPosition]
  split
  · rename_i hsame
    rw [hsame]
    rfl
  · exact Seen.read_position _ _

/-- **A reader of what is missing has then seen what was announced.** -/
theorem read_takeMissing (p : Positions) :
    (Seen.written p).read p.takeMissing.1 = .announced p := by
  obtain ⟨hread, hstatement, hannounced⟩ := p.read_missingStatement
  change (Seen.written p).read (p.missingStatement.1 ++ p.missingStatement.2.missingPosition.1) = _
  rw [Seen.read_append, hread, read_missingPosition, hstatement]
  have hcurrent : p.missingStatement.2.current = p.current := congrArg Seen.position hannounced
  rw [hcurrent, Seen.announced]

/-- Nothing is missing exactly if what was announced is what counts as written. -/
theorem takeMissing_eq_nil_iff (p : Positions) :
    p.takeMissing.1 = [] ↔ Seen.written p = .announced p := by
  constructor
  · intro hnone
    have hread := p.read_takeMissing
    rw [hnone, Seen.read_nil] at hread
    exact hread
  · intro hsame
    obtain ⟨hposition, hstatement⟩ := Seen.mk.inj hsame
    apply List.eq_nil_iff_forall_not_mem.2
    intro entry hentry
    rw [mem_takeMissing_iff, if_pos hstatement.symm] at hentry
    -- both kinds of records are handed over only where the values differ
    rcases hentry with ⟨-, hdiffers⟩ | ⟨-, hdiffers⟩
    · exact hdiffers hstatement.symm
    · exact hdiffers hposition.symm

/-! ## All requests -/

/-- **A reader has seen what counts as written**, and one more request keeps it so. -/
theorem Answers.read_taken (h : p.Answers request taken q) :
    (Seen.written p).read taken = .written q := by
  cases h with
  | announce | announceStatement => rfl
  | take =>
    rw [read_takeMissing, takeMissing_state]
    rfl

theorem read_of_answerAll (h : p.answerAll requests = .ok (taken, q)) :
    (Seen.written p).read taken = .written q := by
  induction requests generalizing p taken with
  | nil =>
    cases h
    rfl
  | cons request requests ih =>
    obtain ⟨first, mid, more, hanswer, hrest, rfl⟩ := answerAll_cons_eq_ok.1 h
    rw [Seen.read_append, (answer_eq_ok.1 hanswer).read_taken]
    exact ih hrest

/-- **Replaying what has been handed over gives what has been announced**, whenever records have just
been taken. Nothing is handed over exactly if the replay of the earlier records gave that already. -/
theorem replayed_of_take (hallowed : ∀ request ∈ requests, request.isAllowed = true)
    {before : List Request} (hbefore : before ++ [.take] <+: requests) :
    ∃ earlier p records q, start.answerAll before = .ok (earlier, p) ∧
      p.answer .take = .ok (records, q) ∧
      Seen.nothing.read (earlier ++ records) = ⟨q.current, q.currentStatement⟩ ∧
      (records = [] ↔ Seen.nothing.read earlier = ⟨q.current, q.currentStatement⟩) := by
  have hmem : ∀ request ∈ before, request.isAllowed = true := by
    intro request hrequest
    exact hallowed request (hbefore.subset (List.mem_append_left _ hrequest))
  obtain ⟨earlier, p, hrun⟩ := start.answerAll_of_isAllowed hmem
  have hseen : Seen.nothing.read earlier = .written p := read_of_answerAll hrun
  have hlast : (⟨p.takeMissing.2.current, p.takeMissing.2.currentStatement⟩ : Seen) =
      .announced p := by
    rw [takeMissing_state, Seen.announced]
  refine ⟨earlier, p, p.takeMissing.1, p.takeMissing.2, hrun, rfl, ?_, ?_⟩
  · rw [Seen.read_append, hseen, read_takeMissing, hlast]
  · rw [hseen, hlast]
    exact p.takeMissing_eq_nil_iff

/-- A position goes back to the statement position, whose record is an earlier one. -/
theorem replayed_of_take_back :
    ∃ p records q,
      start.answerAll [.announceStatement 10, .announce 10, .take, .announce 14, .take,
        .announce 10] = .ok ([(.statementPosition, 10), (.position, 14)], p) ∧
      p.answer .take = .ok (records, q) ∧ records ≠ [] ∧
      Seen.nothing.read ([(.statementPosition, 10), (.position, 14)] ++ records) = ⟨10, 10⟩ := by
  have hallowed : ∀ request ∈ [.announceStatement 10, .announce 10, .take, .announce 14, .take,
      .announce 10, .take, .take], Request.isAllowed request = true := by decide
  have hbefore : [.announceStatement 10, .announce 10, .take, .announce 14, .take, .announce 10] ++
      [.take] <+: [.announceStatement 10, .announce 10, .take, .announce 14, .take, .announce 10,
        .take, Request.take] := ⟨[.take], rfl⟩
  obtain ⟨earlier, p, records, q, hrun, htake, hread, hnone⟩ := replayed_of_take hallowed hbefore
  have hearlier : start.answerAll [.announceStatement 10, .announce 10, .take, .announce 14, .take,
      .announce 10] = .ok ([(.statementPosition, 10), (.position, 14)], ⟨10, 10, 14, 10⟩) := by
    decide
  obtain ⟨rfl, rfl⟩ := Prod.mk.inj (Except.ok.inj (hearlier.symm.trans hrun))
  cases htake
  refine ⟨_, _, _, hearlier, rfl, ?_, hread⟩
  intro hempty
  exact absurd (hnone.1 hempty) (by decide)

end Positions

end CodeReloc
