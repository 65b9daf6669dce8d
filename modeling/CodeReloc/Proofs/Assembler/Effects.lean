import CodeReloc.Assembler.Operation
import CodeReloc.Proofs.Assembler.Growing

set_option autoImplicit false

/-!
# What operations are made of

An operation checks its arguments and then does a few things in order: it emits bytes, writes
records, adds a comment, replaces positions. These are its effects (`Operation.effects`), and to run
an operation is to perform them (`Operation.run_eq`). An effect that asks for room may be refused,
and then the effects before it stay performed and those behind it are not tried. What follows from
that is said once for all operations: `Outcome` lists what effects can end in, with the contents
that they leave behind (`Contents.afterAll`), the growth of the buffer (`Grown`), and the reason for
a refusal (`Assembler.Stuck`).

Main statements: `Operation.run_eq`, `performAll_outcome` and `Operation.run_outcome`.
-/

namespace CodeReloc

/-! ## Effects -/

/-- One of the things that operations do. -/
inductive Effect where
  /-- Makes sure that the gap is free. -/
  | keepGap
  | emit (bytes : ByteArray)
  | record (mode : Mode) (data : Int64)
  | addComment (text : String)
  | setPositions (positions : Positions)
  | overwrite (offset : Nat) (bytes : ByteArray)
  deriving DecidableEq

namespace Effect

/-- Does it. -/
def perform : Effect → Assembly Unit
  | keepGap => Assembler.keepGap
  | emit bytes => Assembler.emit bytes
  | record mode data => do
    Assembler.keepGap
    Assembler.appendRecord mode data
  | addComment text => modify fun a => { a with comments := a.comments.push text }
  | setPositions positions => modify fun a => { a with positions := positions }
  | overwrite offset bytes => modify (Assembler.overwrite offset bytes)

/-- The free bytes that it asks for, beside the gap. -/
def need : Effect → Option Nat
  | keepGap | record _ _ => some 0
  | emit bytes => some bytes.size
  | addComment _ | setPositions _ | overwrite _ _ => none

end Effect

/-- Effects one after the other. -/
def performAll : List Effect → Assembly Unit
  | [] => pure ()
  | x :: xs => do
    x.perform
    performAll xs

/-- A record, unless there is nothing to relocate. -/
def recordEffects (mode : Mode) (data : Int64) : List Effect :=
  if mode.isNone then [] else [.record mode data]

namespace Operation

/-- What an operation asks of its arguments. -/
def contract : Operation → Except Fault Unit
  | align multiple => require (2 ≤ multiple && multiple.isPowerOfTwo) .breach
  | debugBreakSlot mode _ => require mode.isDebugBreakSlot .breach
  | announce position | announceStatement position =>
    require (0 ≤ position) (.invalidPosition position)
  | _ => .ok ()

/-- The effects of an operation, in order. -/
def effects (a : Assembler) : Operation → List Effect
  | emitByte value => [.emit [value].toByteArray]
  | emitWord32 value => [.emit (leBytes 4 value.toNat).toByteArray]
  | emitWord64 value => [.emit (leBytes 8 value.toNat).toByteArray]
  | emit bytes => [.emit bytes]
  | align multiple =>
    List.replicate ((multiple - a.pc % multiple) % multiple) (.emit [0].toByteArray)
  | keepGap => [.keepGap]
  | record mode data => recordEffects mode data
  | comment text =>
    if a.options.comments then
      .addComment text :: recordEffects .comment (Int64.ofNat a.comments.size)
    else []
  | deoptReason reason position =>
    if a.options.deoptReasons then
      recordEffects .position (if position = noPosition then 0 else position.toInt64) ++
        recordEffects .deoptReason (Int64.ofNat reason.toNat)
    else []
  | generatorContinuation => recordEffects .generatorContinuation 0
  | debugBreakSlot mode arguments => recordEffects mode arguments.toInt64
  | constPool size => recordEffects .constPool size.toInt64
  | veneerPool size => recordEffects .veneerPool size.toInt64
  | externalReference address =>
    recordEffects .externalReference 0 ++ [.emit (leBytes 8 address.toNat).toByteArray]
  | announce position => [.setPositions { a.positions with current := position }]
  | announceStatement position =>
    [.setPositions { a.positions with currentStatement := position }]
  | writePositions =>
    .setPositions a.positions.takeMissing.2 ::
      a.positions.takeMissing.1.flatMap fun entry => recordEffects entry.1 entry.2.toInt64
  | overwrite offset bytes => [.overwrite offset bytes]

end Operation

theorem performAll_singleton (x : Effect) : performAll [x] = x.perform := by
  rw [performAll, performAll, bind_pure_unit]

theorem performAll_append (xs ys : List Effect) :
    performAll (xs ++ ys) = (do performAll xs; performAll ys) := by
  induction xs with
  | nil => rw [List.nil_append, performAll, pure_bind]
  | cons x xs ih => rw [List.cons_append, performAll, performAll, ih, bind_assoc]

theorem record_eq (mode : Mode) (data : Int64) :
    Assembler.record mode data = performAll (recordEffects mode data) := by
  rw [recordEffects, Assembler.record]
  cases mode.isNone with
  | true => rfl
  | false => exact (performAll_singleton (.record mode data)).symm

theorem recordPositions_eq (positions : List (Mode × Int32)) :
    Assembler.recordPositions positions =
      performAll (positions.flatMap fun entry => recordEffects entry.1 entry.2.toInt64) := by
  induction positions with
  | nil => rfl
  | cons entry positions ih =>
    rw [Assembler.recordPositions, List.flatMap_cons, performAll_append, record_eq, ih]

theorem emitZeros_eq (n : Nat) :
    Assembler.emitZeros n = performAll (List.replicate n (.emit [0].toByteArray)) := by
  induction n with
  | zero => rfl
  | succ n ih =>
    rw [Assembler.emitZeros, ih]
    rfl

/-- Announcing a position checks it and replaces the positions. -/
theorem replacePositions_eq (a : Assembler) (position : Int32) (positions : Positions) :
    (do
      let a ← get
      let positions ← (do
        require (0 ≤ position) (.invalidPosition position)
        return positions : Except Fault Positions)
      set { a with positions := positions } : Assembly Unit) a =
      require (0 ≤ position) (.invalidPosition position) >>= fun _ =>
        performAll [.setPositions positions] a := by
  rw [performAll_singleton, Computation.bind_apply, Computation.get_apply]
  cases require (0 ≤ position) (.invalidPosition position) with
  | error fault => rfl
  | ok _ => rfl

theorem align_eq (a : Assembler) (multiple : Nat) :
    Assembler.align multiple a =
      (Operation.align multiple).contract >>= fun _ =>
        performAll ((Operation.align multiple).effects a) a := by
  rw [Assembler.align, Computation.bind_apply, Computation.lift_apply, Operation.contract,
    Operation.effects, ← emitZeros_eq]
  cases require (2 ≤ multiple && multiple.isPowerOfTwo) .breach with
  | error fault => rfl
  | ok _ => rfl

theorem debugBreakSlot_eq (a : Assembler) (mode : Mode) (arguments : Int32) :
    Assembler.debugBreakSlot mode arguments a =
      (Operation.debugBreakSlot mode arguments).contract >>= fun _ =>
        performAll ((Operation.debugBreakSlot mode arguments).effects a) a := by
  rw [Assembler.debugBreakSlot, Computation.bind_apply, Computation.lift_apply,
    Operation.contract, Operation.effects, ← record_eq]
  cases require mode.isDebugBreakSlot .breach with
  | error fault => rfl
  | ok _ => rfl

theorem comment_eq (a : Assembler) (text : String) :
    Assembler.comment text a = performAll ((Operation.comment text).effects a) a := by
  rw [Assembler.comment, Computation.bind_apply, Computation.get_apply, Operation.effects]
  change (if a.options.comments = true then _ else _ : Assembly Unit) a = _
  split
  · -- the index that the table answers is its size before
    rw [performAll, ← record_eq, Computation.bind_apply, Computation.bind_apply]
    rfl
  · rfl

theorem deoptReason_eq (a : Assembler) (reason : UInt8) (position : Int32) :
    Assembler.deoptReason reason position a =
      performAll ((Operation.deoptReason reason position).effects a) a := by
  rw [Assembler.deoptReason, Computation.bind_apply, Computation.get_apply, Operation.effects]
  change (if a.options.deoptReasons = true then _ else _ : Assembly Unit) a = _
  split
  · rw [performAll_append, ← record_eq, ← record_eq]
  · rfl

theorem discard_eq {α : Type} (x : Assembly α) :
    (discard x : Assembly Unit) = x >>= fun _ => pure () := rfl

/-- Whether anything was missing is not answered. -/
theorem discard_writePositions_eq (a : Assembler) :
    (discard Assembler.writePositions : Assembly Unit) a =
      performAll (Operation.writePositions.effects a) a := by
  -- the definition takes the pair of missing records and positions apart
  have hwrite : Assembler.writePositions = (do
      let a ← get
      set { a with positions := a.positions.takeMissing.2 }
      Assembler.recordPositions a.positions.takeMissing.1
      return !a.positions.takeMissing.1.isEmpty) := rfl
  rw [discard_eq, hwrite]
  simp only [bind_assoc, pure_bind, bind_pure_unit]
  rw [Computation.bind_apply, Computation.get_apply, Operation.effects, performAll,
    ← recordPositions_eq]
  rfl

/-- **An operation is its contract, followed by its effects.** -/
theorem Operation.run_eq (operation : Operation) (a : Assembler) :
    operation.run a = operation.contract >>= fun _ => performAll (operation.effects a) a := by
  cases operation with
  | emitByte value | emitWord32 value | emitWord64 value | emit bytes | keepGap
  | overwrite offset bytes =>
    rw [effects, performAll_singleton]
    rfl
  | align multiple => exact align_eq a multiple
  | record mode data =>
    rw [effects, ← record_eq]
    rfl
  | comment text => exact comment_eq a text
  | deoptReason reason position => exact deoptReason_eq a reason position
  | generatorContinuation | constPool size | veneerPool size =>
    rw [effects, ← record_eq]
    rfl
  | debugBreakSlot mode arguments => exact debugBreakSlot_eq a mode arguments
  | externalReference address =>
    rw [effects, performAll_append, ← record_eq, performAll_singleton]
    rfl
  | announce position =>
    exact replacePositions_eq a position { a.positions with current := position }
  | announceStatement position =>
    exact replacePositions_eq a position { a.positions with currentStatement := position }
  | writePositions => exact discard_writePositions_eq a

/-! ## What effects leave behind -/

namespace Contents

/-- The contents after an effect. -/
def after (c : Contents) : Effect → Except Fault Contents
  | .keepGap => .ok c
  | .emit bytes => .ok (c.emit (bytesOf bytes))
  | .record mode data => do
    let (bytes, encoder) ← c.encoder.call (.write ⟨UInt64.ofNat c.code.length, mode, data⟩)
    return c.append bytes encoder
  | .addComment text => .ok { c with comments := c.comments.push text }
  | .setPositions positions => .ok { c with positions := positions }
  | .overwrite offset bytes => .ok (c.overwrite offset (bytesOf bytes))

theorem after_record {c : Contents} {mode : Mode} {data : Int64} {bytes : List UInt8}
    {encoder : Encoder}
    (h : c.encoder.call (.write ⟨UInt64.ofNat c.code.length, mode, data⟩) = .ok (bytes, encoder)) :
    c.after (.record mode data) = .ok (c.append bytes encoder) :=
  bind_eq_ok.2 ⟨(bytes, encoder), h, rfl⟩

/-- The contents after effects. -/
def afterAll (c : Contents) : List Effect → Except Fault Contents
  | [] => .ok c
  | x :: xs => do
    let c ← c.after x
    c.afterAll xs

theorem afterAll_cons_eq_ok {c c' : Contents} {x : Effect} {xs : List Effect} :
    c.afterAll (x :: xs) = .ok c' ↔ ∃ mid, c.after x = .ok mid ∧ mid.afterAll xs = .ok c' :=
  bind_eq_ok

theorem afterAll_singleton {c c' : Contents} {x : Effect} (h : c.after x = .ok c') :
    c.afterAll [x] = .ok c' :=
  afterAll_cons_eq_ok.2 ⟨c', h, rfl⟩

theorem afterAll_append {c mid c' : Contents} {xs ys : List Effect}
    (h : c.afterAll xs = .ok mid) (h' : mid.afterAll ys = .ok c') :
    c.afterAll (xs ++ ys) = .ok c' := by
  induction xs generalizing c with
  | nil =>
    cases h
    exact h'
  | cons x xs ih =>
    obtain ⟨next, hnext, hrest⟩ := afterAll_cons_eq_ok.1 h
    exact afterAll_cons_eq_ok.2 ⟨next, hnext, ih hrest⟩

/-- What every effect keeps is kept by all of them. -/
theorem afterAll_induction {P : Contents → Prop} {c c' : Contents} {xs : List Effect}
    (hstep : ∀ x ∈ xs, ∀ c c', P c → c.after x = .ok c' → P c') (hc : P c)
    (h : c.afterAll xs = .ok c') : P c' := by
  induction xs generalizing c with
  | nil =>
    cases h
    exact hc
  | cons x xs ih =>
    obtain ⟨mid, hmid, hrest⟩ := afterAll_cons_eq_ok.1 h
    have hP := hstep x List.mem_cons_self c mid hc hmid
    exact ih (fun y hy => hstep y (List.mem_cons_of_mem x hy)) hP hrest

end Contents

/-- Effects have led from one assembler to another. -/
structure Carries (a : Assembler) (xs : List Effect) (a' : Assembler) : Prop where
  intact : a'.Intact
  grown : Grown a a'
  after_eq : a.contents.afterAll xs = .ok a'.contents

/-- What effects end in. -/
inductive Outcome (a : Assembler) (xs : List Effect) :
    Except LimitExceeded Unit → Assembler → Prop where
  | done {a' : Assembler} (h : Carries a xs a') : Outcome a xs (.ok ()) a'
  /-- There is no room for one of them, and there never will be. -/
  | refused {done rest : List Effect} {x : Effect} {n : Nat} {e : LimitExceeded} {a' : Assembler}
      (hsplit : xs = done ++ x :: rest) (h : Carries a done a') (hneed : x.need = some n)
      (hstuck : a'.Stuck n) : Outcome a xs (.error e) a'

variable {a mid a' : Assembler} {x : Effect} {xs ys : List Effect}
variable {answer : Except LimitExceeded Unit}

namespace Carries

theorem nil (ha : a.Intact) : Carries a [] a := ⟨ha, .refl a, rfl⟩

theorem trans (h : Carries a xs mid) (h' : Carries mid ys a') : Carries a (xs ++ ys) a' :=
  ⟨h'.intact, h.grown.trans h'.grown, Contents.afterAll_append h.after_eq h'.after_eq⟩

/-- The buffer was exchanged before the effects. -/
theorem of_moved (hgrown : Grown a mid) (hcontents : mid.contents = a.contents)
    (h : Carries mid xs a') : Carries a xs a' := by
  refine ⟨h.intact, hgrown.trans h.grown, ?_⟩
  rw [← hcontents]
  exact h.after_eq

/-- One effect that leaves the size of the buffer alone. -/
theorem single (ha : a'.Intact) (hoptions : a'.options = a.options)
    (hsize : a'.buffer.size = a.buffer.size) (hafter : a.contents.after x = .ok a'.contents) :
    Carries a [x] a' :=
  ⟨ha, .of_eq hoptions hsize, Contents.afterAll_singleton hafter⟩

end Carries

namespace Outcome

/-- Some of the effects were performed, the first ones. -/
theorem carries (h : Outcome a xs answer a') : ∃ done, done <+: xs ∧ Carries a done a' := by
  cases h with
  | done h => exact ⟨xs, List.prefix_rfl, h⟩
  | refused hsplit h hneed hstuck =>
    rw [hsplit]
    exact ⟨_, List.prefix_append _ _, h⟩

/-- The effects behind those that are performed. -/
theorem append (h : Carries a xs mid) (h' : Outcome mid ys answer a') :
    Outcome a (xs ++ ys) answer a' := by
  cases h' with
  | done h' => exact .done (h.trans h')
  | refused hsplit h' hneed hstuck =>
    rw [hsplit, ← List.append_assoc]
    exact .refused rfl (h.trans h') hneed hstuck

/-- An effect that asks for room, once it is known what it does where there is room. -/
theorem of_room {n : Nat} {next : Assembly Unit} (ha : a.Intact) (hneed : x.need = some n)
    (hroom : ∀ mid answer a', mid.Intact → mid.HasRoom (n + gap) → Ends next mid answer a' →
      answer = .ok () ∧ Carries mid [x] a')
    (h : Ends (do Assembler.makeRoom n; next) a answer a') : Outcome a [x] answer a' := by
  rcases ends_bind.1 h with ⟨_, mid, hmake, hnext⟩ | ⟨e, hmake, rfl⟩
  · obtain ⟨hmid, hgrown, hcontents, hfree, -⟩ := ha.makeRoom_inv hmake
    obtain ⟨rfl, hcarries⟩ := hroom mid answer a' hmid (hfree rfl) hnext
    exact .done (hcarries.of_moved hgrown hcontents)
  · obtain ⟨hmid, hgrown, hcontents, -, hstuck⟩ := ha.makeRoom_inv hmake
    have hnothing : Carries a [] a' := (Carries.nil hmid).of_moved hgrown hcontents
    exact .refused (List.nil_append [x]).symm hnothing hneed (hstuck e rfl)

/-- Bytes are emitted where there is room for them. -/
theorem emit (ha : a.Intact) {bytes : ByteArray}
    (h : Ends (Assembler.emit bytes) a answer a') : Outcome a [.emit bytes] answer a' := by
  refine of_room ha rfl ?_ h
  intro mid answer a' hmid hfree hends
  have hroom : mid.HasRoom bytes.size := Nat.le_trans (by omega) hfree
  obtain ⟨hgives, hfits, hcontents⟩ := Assembler.appendBytes_gives hmid.toFits hroom
  cases hgives.symm.trans hends
  have hinside : mid.pc + bytes.size ≤ mid.buffer.size := Nat.le_trans hroom hmid.pos_le
  refine ⟨rfl, .single (hmid.of_contents hfits ?_) rfl (size_overlay hinside) ?_⟩
  · rw [hcontents]
    rfl
  · rw [hcontents]
    rfl

/-- A record is written in the gap. -/
theorem record (ha : a.Intact) {mode : Mode} {data : Int64}
    (h : Ends (Effect.perform (.record mode data)) a answer a') :
    Outcome a [.record mode data] answer a' := by
  refine of_room ha rfl ?_ h
  intro mid answer a' hmid hfree hends
  rw [Nat.zero_add] at hfree
  obtain ⟨⟨w, buffer⟩, hwrite, hend⟩ := bind_eq_ok.1 hends
  cases hend
  obtain ⟨bytes, hcall, hfits, hcontents⟩ :=
    Assembler.call_contents (c := .write _) hmid.toFits hfree hmid.sound hwrite
  obtain ⟨_, _, hplaced⟩ := Writer.call_inv (c := .write _) hwrite
  refine ⟨rfl, .single ⟨hfits, hmid.sound.call hcall⟩ rfl hplaced.size_eq ?_⟩
  rw [hcontents]
  refine bind_eq_ok.2 ⟨(bytes, w.encoder), ?_, rfl⟩
  rw [hmid.length_code]
  exact hcall

end Outcome

/-- **Everything that an effect can end in.** -/
theorem Effect.perform_outcome (ha : a.Intact) (h : Ends x.perform a answer a') :
    Outcome a [x] answer a' := by
  cases x with
  | keepGap =>
    rw [perform, Assembler.keepGap, ← bind_pure_unit (x := Assembler.makeRoom 0)] at h
    refine .of_room ha rfl ?_ h
    intro mid answer a' hmid hfree hends
    cases hends
    exact ⟨rfl, .single hmid rfl rfl rfl⟩
  | emit bytes => exact .emit ha h
  | record mode data => exact .record ha h
  | addComment text =>
    cases h
    exact .done (.single ⟨⟨ha.pc_le, ha.pos_le⟩, ha.sound⟩ rfl rfl rfl)
  | setPositions positions =>
    cases h
    exact .done (.single ⟨⟨ha.pc_le, ha.pos_le⟩, ha.sound⟩ rfl rfl rfl)
  | overwrite offset bytes =>
    cases h
    obtain ⟨hfits, hcontents⟩ := Assembler.overwrite_contents ha.toFits offset bytes
    have hoptions : (Assembler.overwrite offset bytes a).options = a.options := by
      rw [Assembler.overwrite]
    have hsize := Assembler.size_overwrite ha.toFits offset bytes
    refine .done (.single (ha.of_contents hfits ?_) hoptions hsize ?_)
    · rw [hcontents]
      rfl
    · rw [hcontents]
      rfl

/-- A record that the encoder takes is appended where the gap is free. -/
theorem Assembler.Intact.appendRecord_gives (ha : a.Intact) (hroom : a.HasRoom gap) {mode : Mode}
    {data : Int64} {bytes : List UInt8} {encoder : Encoder}
    (h : a.writer.encoder.call (.write ⟨UInt64.ofNat a.pc, mode, data⟩) = .ok (bytes, encoder)) :
    ∃ a', Gives (appendRecord mode data) a () a' := by
  have hfree : a.pc + gap ≤ a.writer.pos := hroom
  have hlength := length_call_le_gap ha.sound h
  obtain ⟨w, buffer, hwrite⟩ := Writer.call_of_room ha.sound h (by omega) ha.pos_le
  exact ⟨_, bind_eq_ok.2 ⟨_, hwrite, rfl⟩⟩

/-- **An effect that there is room for is performed**, if the encoder takes its record. -/
theorem Effect.perform_gives (ha : a.Intact)
    (hroom : ∀ n, x.need = some n → a.HasRoom (n + gap)) {c : Contents}
    (hafter : a.contents.after x = .ok c) :
    ∃ a', Gives x.perform a () a' ∧ Carries a [x] a' ∧ a'.contents = c := by
  have hgives : ∃ a', Gives x.perform a () a' := by
    cases x with
    | keepGap => exact ⟨a, Assembler.makeRoom_of_room ha.toFits (hroom 0 rfl)⟩
    | emit bytes => exact ⟨_, Assembler.emit_of_room ha.toFits (hroom bytes.size rfl)⟩
    | record mode data =>
      have hfree := hroom 0 rfl
      have hmake := Assembler.makeRoom_of_room ha.toFits hfree
      rw [Nat.zero_add] at hfree
      obtain ⟨⟨bytes, encoder⟩, hcall, -⟩ := bind_eq_ok.1 hafter
      rw [ha.length_code] at hcall
      obtain ⟨a', happend⟩ := ha.appendRecord_gives hfree hcall
      exact ⟨a', gives_bind.2 ⟨(), a, hmake, happend⟩⟩
    | addComment | setPositions | overwrite => exact ⟨_, gives_modify.2 rfl⟩
  obtain ⟨a', h⟩ := hgives
  cases perform_outcome ha h with
  | done hcarries =>
    obtain ⟨c', hc', hend⟩ := Contents.afterAll_cons_eq_ok.1 hcarries.after_eq
    cases hend
    exact ⟨a', h, hcarries, Except.ok.inj (hc'.symm.trans hafter)⟩

/-- **Everything that effects can end in.** -/
theorem performAll_outcome (ha : a.Intact) (h : Ends (performAll xs) a answer a') :
    Outcome a xs answer a' := by
  induction xs generalizing a with
  | nil =>
    cases h
    exact .done (.nil ha)
  | cons x xs ih =>
    rcases ends_bind.1 h with ⟨_, mid, hfirst, hrest⟩ | ⟨e, hfirst, rfl⟩
    · cases Effect.perform_outcome ha hfirst with
      | done hcarries => exact .append hcarries (ih hcarries.intact hrest)
    · -- what follows the refused effect counts among those that are not tried
      cases Effect.perform_outcome ha hfirst with
      | @refused done rest y n e a' hsplit hcarries hneed hstuck =>
        have hbehind : x :: xs = done ++ y :: (rest ++ xs) := by
          rw [← List.cons_append, ← List.append_assoc, ← hsplit, List.singleton_append]
        exact .refused hbehind hcarries hneed hstuck

/-- An operation within its contract ends as its effects do. -/
theorem Operation.ends_of_effects {operation : Operation} (hcontract : operation.contract = .ok ())
    (h : Ends (performAll (operation.effects a)) a answer a') : Ends operation.run a answer a' := by
  rw [Ends, operation.run_eq]
  exact bind_eq_ok.2 ⟨(), hcontract, h⟩

/-- **Everything that an operation can end in.** Its contract was kept, and its effects were
performed up to one that was refused. -/
theorem Operation.run_outcome (ha : a.Intact) {operation : Operation}
    (h : Ends operation.run a answer a') :
    operation.contract = .ok () ∧ Outcome a (operation.effects a) answer a' := by
  rw [Ends, operation.run_eq] at h
  obtain ⟨_, hcontract, hperform⟩ := bind_eq_ok.1 h
  exact ⟨hcontract, performAll_outcome ha hperform⟩

/-- Operations leave an assembler intact. -/
theorem Operation.intact_of_run (ha : a.Intact) {operation : Operation}
    (h : Ends operation.run a answer a') : a'.Intact := by
  obtain ⟨-, houtcome⟩ := run_outcome ha h
  obtain ⟨_, -, hcarries⟩ := houtcome.carries
  exact hcarries.intact

end CodeReloc
