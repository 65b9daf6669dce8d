import CodeReloc.Proofs.Assembler.Recorded

set_option autoImplicit false

/-!
# Announced positions in the stream

The positions that a recorder takes for written are those that it has had written itself. A deopt
reason brings a position of its own into the same stream, of which the recorder is not told. So when
announced positions are written, there are two cases. If one was missing, the last position of the
stream is the current one. If none was, it is the one that was last before, and that is the current
one unless a deopt reason has been recorded since (`Overtaken`).

Main statement: `writePositions_of_run`. `current_ne_lastPosition` is a run in which the position of a
deopt reason stays the last one although another position is current.
-/

namespace CodeReloc

/-! ## The last position of a stream -/

/-- The data of the last position among records, of either kind. -/
def lastPosition (records : List Record) : Option Int64 :=
  (records.filter (·.mode.isPosition)).getLast?.map Record.data

theorem lastPosition_append (records more : List Record) :
    lastPosition (records ++ more) = (lastPosition more).or (lastPosition records) := by
  rw [lastPosition, List.filter_append, List.getLast?_append, Option.map_or]
  rfl

theorem lastPosition_singleton (r : Record) :
    lastPosition [r] = if r.mode.isPosition then some r.data else none := by
  cases hmode : r.mode.isPosition with
  | true => simp [lastPosition, hmode]
  | false => simp [lastPosition, hmode]

theorem lastPosition_cons (r : Record) (records : List Record) :
    lastPosition (r :: records) = (lastPosition records).or (lastPosition [r]) :=
  lastPosition_append [r] records

/-- Only a position that a later one replaces is not kept, so the last one is. -/
theorem lastPosition_kept (calls : List Call) :
    lastPosition (kept calls) = lastPosition (written calls) := by
  induction calls with
  | nil => rfl
  | cons c calls ih =>
    cases c with
    | finish => exact ih
    | write r =>
      rw [written, lastPosition_cons, kept]
      split
      · rename_i hreplaced
        -- the call behind it writes a position
        obtain ⟨next, later, rfl, hnext⟩ : ∃ next later, calls = .write next :: later ∧
            next.mode.isPosition = true := by
          unfold replacedBy at hreplaced
          split at hreplaced
          · rename_i next later
            simp only [Bool.and_eq_true, beq_iff_eq] at hreplaced
            exact ⟨next, later, rfl, by rw [hreplaced.1.2]; rfl⟩
          · cases hreplaced
        have hlast : lastPosition (written (.write next :: later)) =
            some ((lastPosition (written later)).getD next.data) := by
          rw [written, lastPosition_cons, lastPosition_singleton, if_pos hnext]
          cases lastPosition (written later) with
          | none => rfl
          | some data => rfl
        rw [ih, hlast, Option.some_or]
      · rw [lastPosition_cons, ih]

/-- A position reads back with its data. -/
theorem lastPosition_readBack (start : UInt64) (records : List Record) :
    lastPosition (records.map (Record.readBack start)) = lastPosition records := by
  induction records with
  | nil => rfl
  | cons r records ih =>
    have hdata : lastPosition [r.readBack start] = lastPosition [r] := by
      obtain ⟨pc, mode, data⟩ := r
      cases mode <;> rfl
    rw [List.map_cons, lastPosition_cons, ih, hdata, ← lastPosition_cons]

namespace Assembler

/-- The stream so far, with the position that is held back in front of the bytes that have been
written. -/
def streamSoFar (a : Assembler) : ByteArray :=
  a.writer.encoder.heldBytes.reverse.toByteArray ++ a.buffer.extract a.writer.pos a.buffer.size

/-- The last position in the stream so far. -/
def lastPosition (a : Assembler) : Option Int64 :=
  CodeReloc.lastPosition (walkStream a.streamSoFar 0 .all none).records.toList

end Assembler

namespace Reflects

variable {options : AssemblerOptions} {d : Draft} {a : Assembler}

/-- The stream so far holds the records of the draft. -/
theorem walk_streamSoFar (ha : Reflects options d a) :
    walkStream a.streamSoFar 0 .all none =
      ⟨((kept (d.records.map .write)).map (Record.readBack 0)).toArray, none⟩ := by
  apply walkStream_zero_of_bytes (Encoder.run_concat ha.stream_eq rfl)
  rw [Assembler.streamSoFar, bytesOf_append, bytesOf_toByteArray, bytesOf_extract,
    ← length_bytesOf, List.take_length, List.reverse_append]
  exact congrArg _ (List.reverse_reverse _).symm

theorem lastPosition_eq (ha : Reflects options d a) :
    a.lastPosition = lastPosition d.records := by
  rw [Assembler.lastPosition, ha.walk_streamSoFar, lastPosition_readBack, lastPosition_kept,
    written_map_write]

end Reflects

/-! ## What a draft records of positions -/

namespace Draft

variable {d : Draft} {mode : Mode} {data : Int64}

theorem lastPosition_record (hmode : mode.isPosition = false) :
    lastPosition (d.record mode data).records = lastPosition d.records := by
  rw [record]
  split
  · rfl
  · rw [lastPosition_append, lastPosition_singleton, hmode]
    rfl

theorem lastPosition_record_position (hmode : mode.isPosition = true) :
    lastPosition (d.record mode data).records = some data := by
  have hrecorded : mode.isNone = false := by
    cases mode <;> first | rfl | cases hmode
  rw [record, hrecorded, if_neg Bool.false_ne_true, lastPosition_append, lastPosition_singleton,
    if_pos hmode]
  rfl

@[simp] theorem positions_record (d : Draft) (mode : Mode) (data : Int64) :
    (d.record mode data).positions = d.positions := by
  rw [record]
  split
  · rfl
  · rfl

theorem positions_recordPositions (d : Draft) (positions : List (Mode × Int32)) :
    (d.recordPositions positions).positions = d.positions := by
  induction positions generalizing d with
  | nil => rfl
  | cons entry positions ih =>
    exact (ih (d.record entry.1 entry.2.toInt64)).trans (d.positions_record _ _)

end Draft

/-- What is missing ends with the current position, if anything is missing. Afterwards the current
position counts as written. -/
theorem Positions.takeMissing_inv (p : Positions) :
    (p.takeMissing = ([], p) ∧ p.written = p.current) ∨
      ∃ before mode q, p.takeMissing = (before ++ [(mode, p.current)], q) ∧
        mode.isPosition = true ∧ q.current = p.current ∧ q.written = p.current := by
  obtain ⟨current, currentStatement, written, writtenStatement⟩ := p
  unfold takeMissing missingStatement
  by_cases hstatement : currentStatement = writtenStatement
  · rw [if_pos hstatement]
    by_cases hcurrent : current = written
    · left
      simp [missingPosition, hcurrent]
    · right
      refine ⟨[], .position, ⟨current, currentStatement, current, writtenStatement⟩, ?_⟩
      simp [missingPosition, hcurrent, writePosition, Mode.isPosition]
  · right
    rw [if_neg hstatement]
    by_cases hcurrent : current = currentStatement
    · -- the statement position that is written is the current position as well
      refine ⟨[], .statementPosition,
        ⟨current, currentStatement, currentStatement, currentStatement⟩, ?_⟩
      simp [missingPosition, hcurrent, writeStatement, Mode.isPosition]
    · refine ⟨[(.statementPosition, currentStatement)], .position,
        ⟨current, currentStatement, current, currentStatement⟩, ?_⟩
      simp [missingPosition, hcurrent, writeStatement, writePosition, Mode.isPosition]

/-- Writing announced positions leaves the stream alone where none is missing, and otherwise ends it
with the current position. -/
theorem Draft.writePositions_inv (d : Draft) :
    (d.positions.takeMissing.1 = [] ∧ d.writePositions = d ∧
        d.positions.written = d.positions.current) ∨
      (d.positions.takeMissing.1 ≠ [] ∧
        d.writePositions.positions.current = d.positions.current ∧
        d.writePositions.positions.written = d.positions.current ∧
        lastPosition d.writePositions.records = some d.positions.current.toInt64) := by
  rcases d.positions.takeMissing_inv with ⟨hnone, hwritten⟩ | ⟨before, mode, q, hsome, hmode, hq⟩
  · left
    refine ⟨by rw [hnone], ?_, hwritten⟩
    rw [writePositions, hnone]
    rfl
  · right
    rw [writePositions, hsome]
    refine ⟨by simp, ?_, ?_, ?_⟩
    · rw [positions_recordPositions]
      exact hq.1
    · rw [positions_recordPositions]
      exact hq.2
    · rw [recordPositions, List.foldl_append]
      exact lastPosition_record_position hmode

/-! ## Runs -/

/-- The position that a deopt reason is recorded with. -/
def deoptPosition (position : Int32) : Int64 :=
  if position = noPosition then 0 else position.toInt64

/-- It asks for the record of a deopt reason. -/
def Operation.isDeoptReason : Operation → Bool
  | deoptReason _ _ => true
  | _ => false

/-- The last position of the stream is that of the last deopt reason of a run. -/
def Overtaken (options : AssemblerOptions) (operations : List Operation) (last : Option Int64) :
    Prop :=
  options.deoptReasons = true ∧
    ∃ before reason position after, operations = before ++ .deoptReason reason position :: after ∧
      (∀ operation ∈ after, operation.isDeoptReason = false) ∧
      last = some (deoptPosition position)

/-- The last position of the stream is the one that counts as written. -/
def UpToDate (p : Positions) (last : Option Int64) : Prop :=
  last.getD noPosition.toInt64 = p.written.toInt64

/-- The last position of the stream of a run is the one that counts as written, or comes from a deopt
reason. -/
def Accounted (options : AssemblerOptions) (operations : List Operation) (d : Draft) : Prop :=
  UpToDate d.positions (lastPosition d.records) ∨
    Overtaken options operations (lastPosition d.records)

namespace Accounted

variable {options : AssemblerOptions} {operations : List Operation} {operation : Operation}
variable {d d' : Draft}

theorem empty (options : AssemblerOptions) : Accounted options [] .empty := Or.inl rfl

/-- An operation that brings no position into the stream and writes none. -/
theorem append_quiet (h : Accounted options operations d)
    (hoperation : operation.isDeoptReason = false)
    (hwritten : d'.positions.written = d.positions.written)
    (hlast : lastPosition d'.records = lastPosition d.records) :
    Accounted options (operations ++ [operation]) d' := by
  rw [Accounted, UpToDate, hwritten, hlast]
  rcases h with hcurrent | ⟨hrecorded, before, reason, position, after, rfl, hafter, hposition⟩
  · exact Or.inl hcurrent
  · right
    refine ⟨hrecorded, before, reason, position, after ++ [operation], by simp, ?_, hposition⟩
    intro other hmem
    rcases List.mem_append.1 hmem with hmem | hmem
    · exact hafter other hmem
    · rw [List.mem_singleton.1 hmem]
      exact hoperation

/-- **What an operation does to the last position.** -/
theorem step (h : Accounted options operations d)
    (hrecord : ∀ mode data, operation = .record mode data → mode.isPosition = false)
    (hcontract : operation.contract = .ok ()) :
    Accounted options (operations ++ [operation]) (d.step options operation) := by
  cases operation with
  | emitByte | emitWord32 | emitWord64 | emit | align | keepGap | announce | announceStatement
  | overwrite => exact h.append_quiet rfl rfl rfl
  | record mode data =>
    exact h.append_quiet rfl (by simp [Draft.step])
      (Draft.lastPosition_record (hrecord mode data rfl))
  | comment text =>
    rw [Draft.step]
    split
    · exact h.append_quiet rfl (by simp) (Draft.lastPosition_record rfl)
    · exact h.append_quiet rfl rfl rfl
  | generatorContinuation | constPool | veneerPool | externalReference =>
    exact h.append_quiet rfl (by simp [Draft.step, Draft.emit])
      (Draft.lastPosition_record rfl)
  | debugBreakSlot mode arguments =>
    have hslot : mode.isDebugBreakSlot = true := require_eq_ok.1 hcontract
    have hmode := Mode.isPosition_of_isDebugBreakSlot hslot
    exact h.append_quiet rfl (by simp [Draft.step])
      (Draft.lastPosition_record hmode)
  | deoptReason reason position =>
    rw [Draft.step]
    split
    · -- its own position is the last one now, and the reason behind it is none
      rename_i hrecorded
      right
      refine ⟨hrecorded, operations, reason, position, [], rfl, by simp, ?_⟩
      rw [Draft.lastPosition_record rfl]
      exact Draft.lastPosition_record_position rfl
    · rename_i hrecorded
      rcases h with hcurrent | ⟨hon, -⟩
      · exact Or.inl hcurrent
      · exact absurd hon hrecorded
  | writePositions =>
    rcases d.writePositions_inv with ⟨-, hsame, -⟩ | ⟨-, -, hwritten, hlast⟩
    · exact h.append_quiet rfl (by rw [Draft.step, hsame]) (by rw [Draft.step, hsame])
    · left
      rw [Draft.step, UpToDate, hlast, hwritten]
      rfl

end Accounted

/-- A run of answered operations that asks for no position record itself. -/
theorem Reflects.accounted_of_runAll {options : AssemblerOptions} {done operations : List Operation}
    {d : Draft} {a a' : Assembler} (ha : Reflects options d a) (hd : Accounted options done d)
    (hrecord : ∀ mode data, .record mode data ∈ operations → mode.isPosition = false)
    (h : Gives (Operation.runAll operations) a () a') :
    Accounted options (done ++ operations) (operations.foldl (Draft.step options) d) := by
  -- what was done before stays in sight: one of its deopt reasons may have been the last one
  induction operations generalizing done d a with
  | nil =>
    rw [List.append_nil]
    exact hd
  | cons operation operations ih =>
    obtain ⟨_, mid, hrun, hrest⟩ := gives_bind.1 h
    obtain ⟨hcontract, -⟩ := Operation.run_outcome ha.intact hrun
    have hstep : Accounted options (done ++ [operation]) (d.step options operation) := by
      refine hd.step ?_ hcontract
      rintro mode data rfl
      exact hrecord mode data List.mem_cons_self
    have hlast := ih (ha.run hrun) hstep
      (fun mode data hmem => hrecord mode data (List.mem_cons_of_mem _ hmem)) hrest
    rw [List.append_assoc] at hlast
    exact hlast

/-- A position is announced and written, and a deopt reason brings another one. -/
theorem deoptReason_overtakes :
    ∃ a, Gives (Operation.runAll [.announce 4, .writePositions, .deoptReason 5 7])
        (.new ⟨4096, 4096, false, true, false⟩) () a ∧
      Filled 4096 ⟨⟨4096, 4096, false, true, false⟩, [], [2, 29, 2, 23],
        ⟨0, 0, 7, some .deoptReason, none⟩, #[], ⟨4, -1, 4, -1⟩⟩ a := by
  have hnew := Filled.new ⟨4096, 4096, false, true, false⟩ (by decide)
  obtain ⟨announced, hannounce, h₁⟩ := hnew.run (.announce 4)
    ⟨⟨4096, 4096, false, true, false⟩, [], [], .start, #[], ⟨4, -1, -1, -1⟩⟩
    (by decide) rfl (by decide)
  obtain ⟨written, hwrite, h₂⟩ := h₁.run .writePositions
    ⟨⟨4096, 4096, false, true, false⟩, [], [], ⟨0, 0, 4, some .position, some ⟨0, 4⟩⟩, #[],
      ⟨4, -1, 4, -1⟩⟩ rfl
    (by
      rw [Operation.effects, h₁.positions_eq]
      rfl)
    (by decide)
  -- the position of the reason takes the place of the one that is held back
  obtain ⟨recorded, hdeopt, h₃⟩ := h₂.run (.deoptReason 5 7)
    ⟨⟨4096, 4096, false, true, false⟩, [], [2, 29, 2, 23], ⟨0, 0, 7, some .deoptReason, none⟩, #[],
      ⟨4, -1, 4, -1⟩⟩ rfl
    (by
      rw [Operation.effects, h₂.options_eq]
      rfl)
    (by decide)
  refine ⟨recorded, ?_, h₃⟩
  refine gives_bind.2 ⟨(), announced, hannounce, gives_bind.2 ⟨(), written, hwrite, ?_⟩⟩
  exact gives_bind.2 ⟨(), recorded, hdeopt, gives_pure.2 ⟨rfl, rfl⟩⟩

/-- **When announced positions have been written, the current position is the last one of the
stream, unless none was missing and a deopt reason has brought its own.** The current position counts
as written in any case. -/
theorem writePositions_of_run (options : AssemblerOptions) (operations : List Operation)
    {any : Bool} {a : Assembler}
    (hrecord : ∀ mode data, .record mode data ∈ operations → mode.isPosition = false)
    (h : Gives (do Operation.runAll operations; Assembler.writePositions) (.new options) any a) :
    (walkStream a.streamSoFar 0 .all none).stopped = none ∧
      a.positions.written = a.positions.current ∧
      (any = true → a.lastPosition = some a.positions.current.toInt64) ∧
      (a.lastPosition.getD noPosition.toInt64 = a.positions.current.toInt64 ∨
        any = false ∧ Overtaken options operations a.lastPosition) := by
  obtain ⟨_, mid, hrun, hwrite⟩ := gives_bind.1 h
  have hmid := (Reflects.new options).runAll hrun
  have haccounted := (Reflects.new options).accounted_of_runAll (.empty options) hrecord hrun
  rw [List.nil_append] at haccounted
  generalize operations.foldl (Draft.step options) .empty = d at hmid haccounted
  have ha := hmid.writePositions hwrite
  have hpositions : a.positions = d.writePositions.positions := ha.positions_eq
  obtain ⟨-, hany⟩ := Assembler.gives_writePositions.1 hwrite
  have hmissing : mid.positions = d.positions := hmid.positions_eq
  rw [hmissing] at hany
  rw [ha.walk_streamSoFar, ha.lastPosition_eq, hpositions]
  refine ⟨rfl, ?_⟩
  rcases d.writePositions_inv with ⟨hnone, hsame, hwritten⟩ | ⟨hsome, hcurrent, hwritten, hlast⟩
  · rw [hnone] at hany
    rw [hsame]
    refine ⟨hwritten, fun h => ?_, ?_⟩
    · rw [hany] at h
      cases h
    · rcases haccounted with hdate | hovertaken
      · exact Or.inl (hwritten ▸ hdate)
      · exact Or.inr ⟨hany, hovertaken⟩
  · rw [hlast, hcurrent, hwritten]
    exact ⟨rfl, fun _ => rfl, Or.inl rfl⟩

/-- A position is announced and written, one comes with a deopt reason, and another one is announced
and written behind it. -/
theorem writePositions_of_run_announced :
    ∃ a, Gives (do
        Operation.runAll [.announce 4, .writePositions, .deoptReason 5 7, .announce 9]
        Assembler.writePositions) (.new ⟨4096, 4096, false, true, false⟩) true a ∧
      a.positions = ⟨9, -1, 9, -1⟩ ∧ a.lastPosition = some 9 := by
  obtain ⟨recorded, hfirst, h⟩ := deoptReason_overtakes
  obtain ⟨announced, hannounce, h'⟩ := h.run (.announce 9)
    ⟨⟨4096, 4096, false, true, false⟩, [], [2, 29, 2, 23], ⟨0, 0, 7, some .deoptReason, none⟩, #[],
      ⟨9, -1, 4, -1⟩⟩
    (by decide)
    (by
      rw [Operation.effects, h.positions_eq]
      rfl)
    (by decide)
  obtain ⟨a, hwrite, hwritten⟩ := h'.writePositions
    ⟨⟨4096, 4096, false, true, false⟩, [], [2, 29, 2, 23],
      ⟨0, 0, 9, some .position, some ⟨0, 2⟩⟩, #[], ⟨9, -1, 9, -1⟩⟩
    (by
      rw [Operation.effects, h'.positions_eq]
      rfl)
    (by decide)
  have hrun : Gives (do
        Operation.runAll [.announce 4, .writePositions, .deoptReason 5 7, .announce 9]
        Assembler.writePositions) (.new ⟨4096, 4096, false, true, false⟩) true a :=
    gives_bind.2 ⟨(), announced, Operation.runAll_concat hfirst hannounce, hwrite⟩
  obtain ⟨-, -, hlast, -⟩ := writePositions_of_run _ _ (by simp) hrun
  rw [hwritten.positions_eq] at hlast
  exact ⟨a, hrun, hwritten.positions_eq, hlast rfl⟩

/-- The recorder takes 4 for the last position that was written and does not write it again, but the
last position of the stream is 7. -/
theorem current_ne_lastPosition :
    ∃ a, Gives (do
        Operation.runAll [.announce 4, .writePositions, .deoptReason 5 7]
        Assembler.writePositions) (.new ⟨4096, 4096, false, true, false⟩) false a ∧
      a.positions = ⟨4, -1, 4, -1⟩ ∧ a.lastPosition = some 7 := by
  obtain ⟨recorded, hrun, h⟩ := deoptReason_overtakes
  obtain ⟨a, hflush, hflushed⟩ := h.writePositions
    ⟨⟨4096, 4096, false, true, false⟩, [], [2, 29, 2, 23], ⟨0, 0, 7, some .deoptReason, none⟩, #[],
      ⟨4, -1, 4, -1⟩⟩
    (by
      rw [Operation.effects, h.positions_eq]
      rfl)
    (by decide)
  have hdraft := ((Reflects.new _).runAll hrun).writePositions hflush
  refine ⟨a, gives_bind.2 ⟨(), recorded, hrun, hflush⟩, hflushed.positions_eq, ?_⟩
  rw [hdraft.lastPosition_eq]
  decide +kernel

end CodeReloc
