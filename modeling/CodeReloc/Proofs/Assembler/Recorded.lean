import CodeReloc.Proofs.Assembler.Attempts
import CodeReloc.Proofs.Stream.RoundTrip

set_option autoImplicit false

/-!
# What effects leave in a descriptor

Effects emit instruction bytes and write records. What they leave behind is said on the contents of
the assembler: the instructions are those from before with the emitted bytes behind them
(`Contents.code_afterAll`), and the records that the stream holds are those from before with the
records of the effects behind them (`Contents.Holds.afterAll`).

Effects for which the buffer has room are answered, and what they leave is what their contents say
(`performAll_gives`). So a run is followed on contents alone while it stays inside its buffer
(`Filled`).

Completing cuts the buffer up (`Assembler.Cut`), and a walk over the descriptor finds the records
that the stream held, short of replaced positions (`Cut.walk_eq`).

Main statement: `Intact.complete_found`, the records of one mode in a completed descriptor.
-/

namespace CodeReloc

/-! ## Instructions and stream -/

theorem length_layOver (code bytes : List UInt8) (offset : Nat) :
    (layOver code offset bytes).length = code.length := by
  simp only [layOver, List.length_take, List.length_append, List.length_drop]
  omega

namespace Effect

/-- The instruction bytes that it emits. -/
def emitted : Effect → List UInt8
  | emit bytes => bytesOf bytes
  | _ => []

/-- The records that it writes where the instructions end at `pc`. -/
def records (pc : Nat) : Effect → List Record
  | record mode data => [⟨UInt64.ofNat pc, mode, data⟩]
  | _ => []

/-- It lays bytes over instructions. -/
def isOverwrite : Effect → Bool
  | overwrite _ _ => true
  | _ => false

end Effect

/-- The records that effects write, beginning where the instructions end at `pc`. -/
def recordsOf (pc : Nat) : List Effect → List Record
  | [] => []
  | x :: xs => x.records pc ++ recordsOf (pc + x.emitted.length) xs

theorem mem_recordsOf {pc : Nat} {xs : List Effect} {r : Record} (h : r ∈ recordsOf pc xs) :
    .record r.mode r.data ∈ xs := by
  induction xs generalizing pc with
  | nil => cases h
  | cons x xs ih =>
    rcases List.mem_append.1 h with hfirst | hrest
    · cases x with
      | record mode data =>
        rw [Effect.records, List.mem_singleton] at hfirst
        rw [hfirst]
        exact List.mem_cons_self
      | keepGap | emit | addComment | setPositions | overwrite => cases hfirst
    · exact List.mem_cons_of_mem x (ih hrest)

/-- Effects that record nothing of a mode. -/
theorem filter_recordsOf {mode : Mode} {xs : List Effect} (h : ∀ data, .record mode data ∉ xs)
    (pc : Nat) : (recordsOf pc xs).filter (·.mode == mode) = [] := by
  rw [List.filter_eq_nil_iff]
  intro r hr hmode
  have hmem := mem_recordsOf hr
  rw [eq_of_beq hmode] at hmem
  exact h r.data hmem

namespace Contents

variable {c c' : Contents} {x : Effect} {xs : List Effect} {records : List Record}

/-- The stream holds the records, except for the position that is held back. -/
def Holds (c : Contents) (records : List Record) : Prop :=
  Encoder.start.run (records.map .write) = .ok (c.stream, c.encoder)

theorem length_code_after (h : c.after x = .ok c') :
    c'.code.length = c.code.length + x.emitted.length := by
  cases x with
  | emit bytes =>
    cases h
    exact List.length_append
  | record mode data =>
    obtain ⟨_, -, h⟩ := bind_eq_ok.1 h
    cases h
    rfl
  | overwrite offset bytes =>
    cases h
    exact length_layOver c.code (bytesOf bytes) offset
  | keepGap | addComment | setPositions =>
    cases h
    rfl

theorem code_after (hx : x.isOverwrite = false) (h : c.after x = .ok c') :
    c'.code = c.code ++ x.emitted := by
  cases x with
  | emit bytes =>
    cases h
    rfl
  | record mode data =>
    obtain ⟨_, -, h⟩ := bind_eq_ok.1 h
    cases h
    exact (List.append_nil c.code).symm
  | overwrite offset bytes => cases hx
  | keepGap | addComment | setPositions =>
    cases h
    exact (List.append_nil c.code).symm

theorem length_stream_after (h : c.after x = .ok c') : c.stream.length ≤ c'.stream.length := by
  cases x with
  | record mode data =>
    obtain ⟨_, -, h⟩ := bind_eq_ok.1 h
    cases h
    rw [append, List.length_append]
    exact Nat.le_add_right _ _
  | keepGap | emit | addComment | setPositions | overwrite =>
    cases h
    exact Nat.le_refl _

/-- An effect that writes a record is one more call of the encoder. -/
theorem Holds.after (hc : c.Holds records) (h : c.after x = .ok c') :
    c'.Holds (records ++ x.records c.code.length) := by
  cases x with
  | record mode data =>
    obtain ⟨⟨bytes, encoder⟩, hcall, h⟩ := bind_eq_ok.1 h
    cases h
    rw [Holds, List.map_append]
    exact Encoder.run_concat hc hcall
  | keepGap | emit | addComment | setPositions | overwrite =>
    cases h
    change Holds _ (records ++ [])
    rw [List.append_nil]
    exact hc

/-- Neither part gets shorter. -/
theorem length_afterAll (h : c.afterAll xs = .ok c') :
    c.code.length ≤ c'.code.length ∧ c.stream.length ≤ c'.stream.length := by
  refine afterAll_induction (P := fun mid =>
    c.code.length ≤ mid.code.length ∧ c.stream.length ≤ mid.stream.length) ?_
    ⟨Nat.le_refl _, Nat.le_refl _⟩ h
  rintro x - mid next ⟨hcode, hstream⟩ hafter
  rw [length_code_after hafter]
  exact ⟨Nat.le_add_right_of_le hcode, Nat.le_trans hstream (length_stream_after hafter)⟩

/-- **Emitted bytes come after the instructions.** -/
theorem code_afterAll (hxs : ∀ x ∈ xs, x.isOverwrite = false) (h : c.afterAll xs = .ok c') :
    c'.code = c.code ++ xs.flatMap Effect.emitted := by
  induction xs generalizing c with
  | nil =>
    cases h
    exact (List.append_nil c'.code).symm
  | cons x xs ih =>
    obtain ⟨mid, hmid, hrest⟩ := afterAll_cons_eq_ok.1 h
    rw [ih (fun y hy => hxs y (List.mem_cons_of_mem x hy)) hrest,
      code_after (hxs x List.mem_cons_self) hmid, List.flatMap_cons, List.append_assoc]

/-- **The records of effects come after those that the stream holds.** -/
theorem Holds.afterAll (hc : c.Holds records) (h : c.afterAll xs = .ok c') :
    c'.Holds (records ++ recordsOf c.code.length xs) := by
  induction xs generalizing c records with
  | nil =>
    cases h
    change Holds _ (records ++ [])
    rw [List.append_nil]
    exact hc
  | cons x xs ih =>
    obtain ⟨mid, hmid, hrest⟩ := afterAll_cons_eq_ok.1 h
    have hlast := ih (hc.after hmid) hrest
    rw [length_code_after hmid, List.append_assoc] at hlast
    exact hlast

end Contents

/-! ## Effects that there is room for -/

/-- An effect asks for the bytes that it emits. -/
theorem Effect.need_le {x : Effect} {n : Nat} (h : x.need = some n) : n ≤ x.emitted.length := by
  cases x with
  | emit bytes =>
    cases h
    exact Nat.le_of_eq (length_bytesOf bytes).symm
  | keepGap | record mode data =>
    cases h
    exact Nat.zero_le _
  | addComment | setPositions | overwrite => cases h

/-- In a buffer that does not grow, effects are performed when the gap is still free behind the last
of them. -/
theorem performAll_gives {a : Assembler} {xs : List Effect} {c : Contents} (ha : a.Intact)
    (hfull : a.Full) (hafter : a.contents.afterAll xs = .ok c)
    (hroom : c.code.length + c.stream.length + gap ≤ a.buffer.size) :
    ∃ a', Gives (performAll xs) a () a' ∧ Carries a xs a' ∧ a'.contents = c := by
  induction xs generalizing a with
  | nil =>
    cases hafter
    exact ⟨a, gives_pure.2 ⟨rfl, rfl⟩, .nil ha, rfl⟩
  | cons x xs ih =>
    obtain ⟨next, hnext, hrest⟩ := Contents.afterAll_cons_eq_ok.1 hafter
    obtain ⟨hcode, hstream⟩ := Contents.length_afterAll hrest
    have hgrows := Contents.length_code_after hnext
    have hgrows' := Contents.length_stream_after hnext
    -- what comes later only takes more room
    have hfree : ∀ n, x.need = some n → a.HasRoom (n + gap) := by
      intro n hneed
      have hlength := Effect.need_le hneed
      rw [ha.hasRoom_iff]
      omega
    obtain ⟨mid, hperform, hcarries, rfl⟩ := Effect.perform_gives ha hfree hnext
    rw [← hcarries.grown.full hfull] at hroom
    obtain ⟨a', hperformAll, hcarries', hlast⟩ :=
      ih hcarries.intact (hcarries.grown.full_of_full hfull) hrest hroom
    exact ⟨a', gives_bind.2 ⟨(), mid, hperform, hperformAll⟩, hcarries.trans hcarries', hlast⟩

/-- The assembler holds the contents in a buffer of `size` bytes that does not grow. -/
structure Filled (size : Nat) (c : Contents) (a : Assembler) : Prop where
  intact : a.Intact
  full : a.Full
  size_eq : a.buffer.size = size
  contents_eq : a.contents = c

namespace Filled

variable {size : Nat} {c : Contents} {a : Assembler}

theorem new (options : AssemblerOptions)
    (hfull : ¬ CanGrow options.maxSize (max options.initialSize minimalSize)) :
    Filled (max options.initialSize minimalSize) ⟨options, [], [], .start, #[], .start⟩
      (.new options) := by
  have hsize : (Assembler.new options).buffer.size = max options.initialSize minimalSize :=
    size_copies _ _
  refine ⟨(Reflects.new options).intact, ?_, hsize, Assembler.contents_new options⟩
  rw [Assembler.Full, hsize]
  exact hfull

theorem positions_eq (h : Filled size c a) : a.positions = c.positions :=
  congrArg Contents.positions h.contents_eq

theorem options_eq (h : Filled size c a) : a.options = c.options :=
  congrArg Contents.options h.contents_eq

/-- An operation within its contract is answered when the gap is still free behind it. -/
theorem run (h : Filled size c a) (operation : Operation) (c' : Contents)
    (hcontract : operation.contract = .ok ()) (hafter : c.afterAll (operation.effects a) = .ok c')
    (hroom : c'.code.length + c'.stream.length + gap ≤ size) :
    ∃ a', Gives operation.run a () a' ∧ Filled size c' a' := by
  rw [← h.contents_eq] at hafter
  rw [← h.size_eq] at hroom
  obtain ⟨a', hperform, hcarries, hlast⟩ := performAll_gives h.intact h.full hafter hroom
  refine ⟨a', operation.ends_of_effects hcontract hperform, hcarries.intact,
    hcarries.grown.full_of_full h.full, ?_, hlast⟩
  rw [hcarries.grown.full h.full, h.size_eq]

/-- Writing announced positions says whether any were missing. -/
theorem writePositions (h : Filled size c a) (c' : Contents)
    (hafter : c.afterAll (Operation.writePositions.effects a) = .ok c')
    (hroom : c'.code.length + c'.stream.length + gap ≤ size) :
    ∃ a', Gives Assembler.writePositions a (!c.positions.takeMissing.1.isEmpty) a' ∧
      Filled size c' a' := by
  obtain ⟨a', hrun, hfilled⟩ := h.run .writePositions c' rfl hafter hroom
  obtain ⟨any, hwrite⟩ := gives_discard.1 hrun
  obtain ⟨-, rfl⟩ := Assembler.gives_writePositions.1 hwrite
  rw [h.positions_eq] at hwrite
  exact ⟨a', hwrite, hfilled⟩

end Filled

/-- Effects that neither overwrite nor emit leave the instructions alone. -/
theorem Carries.code_eq {a a' : Assembler} {xs : List Effect} (h : Carries a xs a')
    (hxs : ∀ x ∈ xs, x.isOverwrite = false ∧ x.emitted = []) :
    a'.contents.code = a.contents.code := by
  have hnone : xs.flatMap Effect.emitted = [] :=
    List.flatMap_eq_nil_iff.2 fun x hx => (hxs x hx).2
  rw [Contents.code_afterAll (fun x hx => (hxs x hx).1) h.after_eq, hnone, List.append_nil]

/-! ## The effects of an operation -/

namespace Operation

/-- The modes of the records that an operation writes of its own accord. -/
def ownModes : Operation → List Mode
  | comment _ => [.comment]
  | deoptReason _ _ => [.position, .deoptReason]
  | generatorContinuation => [.generatorContinuation]
  | constPool _ => [.constPool]
  | veneerPool _ => [.veneerPool]
  | externalReference _ => [.externalReference]
  | writePositions => [.statementPosition, .position]
  | _ => []

/-- The modes of the records that an operation may write. -/
def modes : Operation → List Mode
  | record mode _ | debugBreakSlot mode _ => [mode]
  | operation => operation.ownModes

/-- It does nothing but record. -/
def isRecording : Operation → Bool
  | record _ _ | comment _ | deoptReason _ _ | generatorContinuation | debugBreakSlot _ _
  | constPool _ | veneerPool _ | writePositions => true
  | _ => false

/-- It lays bytes over instructions. -/
def isOverwrite : Operation → Bool
  | overwrite _ _ => true
  | _ => false

/-- It announces a position, or writes those that have been announced. -/
def movesPositions : Operation → Bool
  | announce _ | announceStatement _ | writePositions => true
  | _ => false

/-- What an operation may be made of. -/
inductive Makes (operation : Operation) : Effect → Prop where
  | keepGap : Makes operation .keepGap
  | emit (bytes : ByteArray) (h : operation.isRecording = false) : Makes operation (.emit bytes)
  | record {mode : Mode} (data : Int64) (h : mode ∈ operation.modes) :
      Makes operation (.record mode data)
  | addComment (text : String) (h : operation = .comment text) :
      Makes operation (.addComment text)
  | setPositions (positions : Positions) (h : operation.movesPositions = true) :
      Makes operation (.setPositions positions)
  | overwrite (offset : Nat) (bytes : ByteArray) (h : operation = .overwrite offset bytes) :
      Makes operation (.overwrite offset bytes)

end Operation

theorem mem_recordEffects {mode : Mode} {data : Int64} {x : Effect} :
    x ∈ recordEffects mode data ↔ mode.isNone = false ∧ x = .record mode data := by
  rw [recordEffects]
  cases mode.isNone with
  | true => simp
  | false => simp

/-- A missing position is of one of the two kinds. -/
theorem Positions.mem_takeMissing {p : Positions} {entry : Mode × Int32}
    (h : entry ∈ p.takeMissing.1) : entry.1 = .statementPosition ∨ entry.1 = .position := by
  have htaken : entry ∈ p.missingStatement.1 ++ p.missingStatement.2.missingPosition.1 := h
  rcases List.mem_append.1 htaken with hstatement | hposition
  · left
    rw [missingStatement] at hstatement
    split at hstatement
    · cases hstatement
    · rw [List.mem_singleton.1 hstatement]
  · right
    rw [missingPosition] at hposition
    split at hposition
    · cases hposition
    · rw [List.mem_singleton.1 hposition]

namespace Operation

variable {operation : Operation} {x : Effect}

theorem Makes.of_recordEffects {mode : Mode} {data : Int64} (hmode : mode ∈ operation.modes)
    (h : x ∈ recordEffects mode data) : operation.Makes x := by
  obtain ⟨-, rfl⟩ := mem_recordEffects.1 h
  exact .record data hmode

/-- **Everything that an operation is made of.** -/
theorem makes_of_mem_effects {a : Assembler} (h : x ∈ operation.effects a) :
    operation.Makes x := by
  cases operation with
  | emitByte value | emitWord32 value | emitWord64 value | emit bytes =>
    rw [List.mem_singleton.1 h]
    exact .emit _ rfl
  | align multiple =>
    rw [List.eq_of_mem_replicate h]
    exact .emit _ rfl
  | keepGap =>
    rw [List.mem_singleton.1 h]
    exact .keepGap
  | record mode data => exact .of_recordEffects List.mem_cons_self h
  | generatorContinuation | constPool size | veneerPool size | debugBreakSlot mode arguments =>
    exact .of_recordEffects List.mem_cons_self h
  | comment text =>
    rw [effects] at h
    split at h
    · rcases List.mem_cons.1 h with rfl | h
      · exact .addComment text rfl
      · exact .of_recordEffects List.mem_cons_self h
    · cases h
  | deoptReason reason position =>
    rw [effects] at h
    split at h
    · rcases List.mem_append.1 h with h | h
      · exact .of_recordEffects List.mem_cons_self h
      · exact .of_recordEffects (List.mem_cons_of_mem _ List.mem_cons_self) h
    · cases h
  | externalReference address =>
    rcases List.mem_append.1 h with h | h
    · exact .of_recordEffects List.mem_cons_self h
    · rw [List.mem_singleton.1 h]
      exact .emit _ rfl
  | announce position | announceStatement position =>
    rw [List.mem_singleton.1 h]
    exact .setPositions _ rfl
  | writePositions =>
    rcases List.mem_cons.1 h with rfl | h
    · exact .setPositions _ rfl
    · obtain ⟨entry, hentry, h⟩ := List.mem_flatMap.1 h
      refine .of_recordEffects ?_ h
      rcases Positions.mem_takeMissing hentry with hkind | hkind
      · rw [hkind]
        exact List.mem_cons_self
      · rw [hkind]
        exact List.mem_cons_of_mem _ List.mem_cons_self
  | overwrite offset bytes =>
    rw [List.mem_singleton.1 h]
    exact .overwrite offset bytes rfl

/-- A record that an operation writes is of one of its modes. -/
theorem mode_mem_modes {a : Assembler} {mode : Mode} {data : Int64}
    (h : .record mode data ∈ operation.effects a) : mode ∈ operation.modes := by
  cases makes_of_mem_effects h with
  | record data hmode => exact hmode

/-- A record of a mode that is not the operation's own has been asked for, or is of a slot. -/
theorem not_mem_modes {mode : Mode} (hslot : mode.isDebugBreakSlot = false)
    (hrecord : ∀ data, operation ≠ .record mode data) (hown : mode ∉ operation.ownModes)
    (hcontract : operation.contract = .ok ()) : mode ∉ operation.modes := by
  cases operation with
  | record other data =>
    intro h
    cases List.mem_singleton.1 h
    exact hrecord data rfl
  | debugBreakSlot other arguments =>
    intro h
    cases List.mem_singleton.1 h
    rw [require_eq_ok.1 hcontract] at hslot
    cases hslot
  | _ => exact hown

/-- Only overwriting lays bytes over instructions. -/
theorem isOverwrite_of_mem_effects {a : Assembler} (hoperation : operation.isOverwrite = false)
    (h : x ∈ operation.effects a) : x.isOverwrite = false := by
  cases makes_of_mem_effects h with
  | overwrite offset bytes hother =>
    rw [hother] at hoperation
    cases hoperation
  | keepGap | emit | record | addComment | setPositions => rfl

/-- An operation that has nothing to do with announced positions leaves them alone. -/
theorem setPositions_not_mem_effects {a : Assembler} (hoperation : operation.movesPositions = false)
    (p : Positions) : .setPositions p ∉ operation.effects a := by
  intro h
  cases makes_of_mem_effects h with
  | setPositions _ hother =>
    rw [hoperation] at hother
    cases hother

/-- An operation that only records asks for the gap and for nothing else. -/
theorem need_of_mem_effects {a : Assembler} (hoperation : operation.isRecording = true)
    (h : x ∈ operation.effects a) {n : Nat} (hneed : x.need = some n) : n = 0 := by
  cases makes_of_mem_effects h with
  | emit bytes hother =>
    rw [hoperation] at hother
    cases hother
  | keepGap | record =>
    cases hneed
    rfl
  | addComment | setPositions | overwrite => cases hneed

/-- An operation that only records emits nothing. -/
theorem emitted_of_mem_effects {a : Assembler} (hoperation : operation.isRecording = true)
    (h : x ∈ operation.effects a) : x.emitted = [] := by
  cases makes_of_mem_effects h with
  | emit bytes hother =>
    rw [hoperation] at hother
    cases hother
  | keepGap | record | addComment | setPositions | overwrite => rfl

end Operation

/-! ## Completed descriptors -/

/-- The part of a walk that is of one mode, when replaced positions play no role. -/
theorem filter_kept {p : Record → Bool} (hp : ∀ r, r.mode = .position → p r = false)
    (calls : List Call) : (kept calls).filter p = (written calls).filter p := by
  induction calls with
  | nil => rfl
  | cons c calls ih =>
    cases c with
    | finish => exact ih
    | write r =>
      rw [kept, written]
      split
      · rename_i hreplaced
        have hdrop : ¬ p r = true := by
          intro hkeep
          have hother : r.mode ≠ .position := by
            intro hmode
            rw [hp r hmode] at hkeep
            cases hkeep
          rw [replacedBy_of_ne hother] at hreplaced
          cases hreplaced
        rw [List.filter_cons_of_neg hdrop, ih]
      · rw [List.filter_cons, List.filter_cons, ih]

namespace Assembler

variable {a a' : Assembler} {d : Descriptor} {records : List Record}

/-- The last effects neither overwrite nor emit. -/
theorem quiet_lastEffects {x : Effect} (h : x ∈ a.lastEffects) :
    x.isOverwrite = false ∧ x.emitted = [] := by
  rcases List.mem_append.1 h with hx | hx
  · exact ⟨Operation.isOverwrite_of_mem_effects rfl hx, Operation.emitted_of_mem_effects rfl hx⟩
  · rw [List.mem_singleton.1 hx]
    exact ⟨rfl, rfl⟩

/-- The buffer has been cut up: what was held back has been written, and instructions and stream
are taken from its ends. -/
structure Cut (a : Assembler) (d : Descriptor) (a' : Assembler) : Prop where
  fits : a'.Fits
  size_eq : a'.buffer.size = a.buffer.size
  contents_eq : a'.contents = a.contents.append a.writer.encoder.heldBytes a.writer.encoder.release
  instructions_eq : d.instructions = .ok a.contents.code.toByteArray
  stream_eq : ∃ stream, d.stream = .ok stream ∧ bytesOf stream = a'.contents.stream.reverse
  comments_eq : d.comments = a.comments

/-- Where the gap is free, the buffer is cut up. -/
theorem Intact.cut_gives (ha : a.Intact) (hroom : a.HasRoom gap) :
    ∃ d a', Gives cut a d a' ∧ Cut a d a' := by
  have hheld := length_heldBytes_le ha.sound
  have hfree : a.pc + 32 ≤ a.writer.pos := hroom
  obtain ⟨w, buffer, hfinish⟩ := Writer.finish_of_room (w := a.writer) (by omega) ha.pos_le
  obtain ⟨bytes, hcall, hfits, hcontents⟩ :=
    call_contents (c := .finish) ha.toFits hroom ha.sound hfinish
  obtain ⟨hplaced, -⟩ := Writer.finish_inv hfinish
  obtain ⟨hbytes, hencoder⟩ := Prod.mk.inj (Except.ok.inj hcall)
  rw [← hbytes, ← hencoder] at hcontents
  obtain ⟨stream, instructions, hstream, hreversed, hinstructions, hcode⟩ :=
    hfits.descriptor_eq hfits.streamSize_eq a.comments
  refine ⟨_, { a with buffer := buffer, writer := w }, cut_of_finish hfinish hfits,
    hfits, hplaced.size_eq, hcontents, hinstructions.trans (congrArg Except.ok ?_),
    ⟨stream, hstream, hreversed⟩, rfl⟩
  apply bytesOf_injective
  rw [hcode, hcontents, bytesOf_toByteArray]
  rfl

/-- **A walk finds the records that the stream held**, short of replaced positions. -/
theorem Cut.walk_eq (h : Cut a d a') (ha : a.contents.Holds records) :
    d.walk .all = ⟨((kept (records.map .write)).map (Record.readBack 0)).toArray, none⟩ := by
  obtain ⟨stream, hstream, hreversed⟩ := h.stream_eq
  have hrun : Encoder.start.run (records.map .write ++ [.finish]) =
      .ok (a'.contents.stream, a'.contents.encoder) := by
    rw [h.contents_eq]
    exact Encoder.run_concat ha rfl
  rw [Descriptor.walk, hstream]
  exact walkStream_zero_of_bytes hrun hreversed

/-- What the last effects come to. -/
theorem Intact.lastEffects_outcome (ha : a.Intact) {answer : Except LimitExceeded Unit}
    (h : Ends (performAll a.lastEffects) a answer a') :
    Outcome a a.lastEffects answer a' ∧ (answer = .ok () → a'.HasRoom gap) := by
  refine ⟨performAll_outcome ha h, ?_⟩
  rintro rfl
  rw [lastEffects, performAll_append, performAll_singleton] at h
  obtain ⟨_, mid, hwrite, hkeep⟩ := gives_bind.1 h
  cases performAll_outcome ha hwrite with
  | done hcarries =>
    obtain ⟨-, -, -, hroom, -⟩ := hcarries.intact.makeRoom_inv hkeep
    have hfree := hroom rfl
    rw [Nat.zero_add] at hfree
    exact hfree

/-- **What completing comes to.** -/
theorem Intact.complete_inv (ha : a.Intact) (h : Gives complete a d a') :
    ∃ roomy, Carries a a.lastEffects roomy ∧ roomy.HasRoom gap ∧ Cut roomy d a' := by
  rw [Gives, complete_eq] at h
  obtain ⟨_, roomy, hlast, hcut⟩ := gives_bind.1 h
  obtain ⟨houtcome, hroom⟩ := ha.lastEffects_outcome hlast
  cases houtcome with
  | done hcarries =>
    obtain ⟨d', last, hgives, hd⟩ := hcarries.intact.cut_gives (hroom rfl)
    cases hgives.symm.trans hcut
    exact ⟨roomy, hcarries, hroom rfl, hd⟩

/-- **The records of one mode in a completed descriptor**, unless it is a mode of positions, are
those that the stream held before. -/
theorem Intact.complete_found (ha : a.Intact) (hrecords : a.contents.Holds records)
    (h : Gives complete a d a') {mode : Mode} (hmode : mode.isPosition = false) :
    ∃ found, d.walk .all = ⟨found, none⟩ ∧ found.toList.filter (·.mode == mode) =
      (records.filter (·.mode == mode)).map (Record.readBack 0) := by
  obtain ⟨roomy, hcarries, -, hcut⟩ := ha.complete_inv h
  refine ⟨_, hcut.walk_eq (hrecords.afterAll hcarries.after_eq), ?_⟩
  have hposition : ∀ r : Record, r.mode = .position → (r.mode == mode) = false := by
    intro r hr
    rw [hr, beq_eq_false_iff_ne]
    rintro rfl
    cases hmode
  -- the last effects write positions only
  have hlast : ∀ data, .record mode data ∉ a.lastEffects := by
    intro data hdata
    rcases List.mem_append.1 hdata with hwritten | hkept
    · rcases List.mem_cons.1 (Operation.mode_mem_modes hwritten) with rfl | hkind
      · cases hmode
      · cases List.mem_singleton.1 hkind
        cases hmode
    · cases List.mem_singleton.1 hkept
  have hsame : (fun r : Record => r.mode == mode) ∘ Record.readBack 0 = (·.mode == mode) := rfl
  rw [List.filter_map, hsame, filter_kept hposition, written_map_write, List.filter_append,
    filter_recordsOf hlast, List.append_nil]

end Assembler

end CodeReloc
