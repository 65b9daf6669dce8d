import CodeReloc.Proofs.Stream.Trace

set_option autoImplicit false

/-!
# Reading only some modes

A reader with a mask takes other paths through a stream than a reader of everything: it passes over
payloads instead of reading them, and it leaves its last id or last position alone while no record
that it wants depends on them. It finds the same records nevertheless, less those of other modes,
on any bytes at all: the two cursors agree on every number that the mask can see
(`Cursor.Agrees`), each item keeps them so and meets a fault for both or for neither
(`Cursor.item_sameAnswer`).

Main statement: `walkStream_eq_filter`.
-/

namespace CodeReloc

/-- Whether a record has a mode of the mask. -/
def Mask.wants (mask : Mask) (r : Record) : Bool := mask.contains r.mode

/-- The trace without the records of other modes. -/
def Trace.only (mask : Mask) (t : Trace) : Trace := ⟨t.records.filter mask.wants, t.stopped⟩

/-- The walk without the records of other modes. -/
def Walk.only (mask : Mask) (w : Walk) : Walk := ⟨w.records.filter mask.wants, w.stopped⟩

theorem Walk.toTrace_only (mask : Mask) (w : Walk) :
    (w.only mask).toTrace = w.toTrace.only mask := by
  simp [toTrace, only, Trace.only]

theorem Trace.only_after (mask : Mask) (found : Option Record) (t : Trace) :
    (t.after found.toList).only mask = (t.only mask).after (found.filter mask.wants).toList := by
  cases found with
  | none => rfl
  | some r =>
    cases hr : mask.wants r with
    | true => simp [only, after, Option.filter_some, hr]
    | false => simp [only, after, Option.filter_some, hr]

namespace Cursor

/-- Two cursors on the same bytes, at the same place, whose last id and last position agree as far
as records of the mask depend on them. -/
structure Agrees (mask : Mask) (c d : Cursor) : Prop where
  rest : c.rest = d.rest
  pc : c.pc = d.pc
  lastId : mask.contains .codeTargetWithId = true → c.lastId = d.lastId
  lastPosition : mask.intersects .positions = true → c.lastPosition = d.lastPosition

/-- The answers of one step, with a mask and without: the same fault, or cursors that agree and the
record that was found, if the mask wants it. -/
inductive SameAnswer (mask : Mask) :
    Except Fault (Option Record × Cursor) → Except Fault (Option Record × Cursor) → Prop where
  | fault (f : Fault) : SameAnswer mask (.error f) (.error f)
  | found {c d : Cursor} (r : Option Record) (h : Agrees mask c d) :
      SameAnswer mask (.ok (r.filter mask.wants, c)) (.ok (r, d))

theorem SameAnswer.of_eq {mask : Mask} {found r : Option Record} {c d : Cursor}
    (hfound : found = r.filter mask.wants) (h : Agrees mask c d) :
    SameAnswer mask (.ok (found, c)) (.ok (r, d)) := by
  subst hfound
  exact .found r h

/-- Two steps that begin with the same computation. -/
theorem SameAnswer.bind {mask : Mask} {α : Type} {x : Except Fault α}
    {f g : α → Except Fault (Option Record × Cursor)} (h : ∀ a, SameAnswer mask (f a) (g a)) :
    SameAnswer mask (x >>= f) (x >>= g) := by
  cases x with
  | error fault => exact .fault fault
  | ok a => exact h a

section Step

variable {mask : Mask} {c d : Cursor}

/-- The same bytes were used up and the same distance was covered. -/
theorem Agrees.moved (h : Agrees mask c d) (rest : List UInt8) (pc : UInt64) :
    Agrees mask { c with rest := rest, pc := pc } { d with rest := rest, pc := pc } :=
  ⟨rfl, rfl, h.lastId, h.lastPosition⟩

theorem some_eq_filter {mode : Mode} (hm : mask.contains mode = true) (pc : UInt64)
    (data : Int64) :
    some ⟨pc, mode, data⟩ = (some ⟨pc, mode, data⟩ : Option Record).filter mask.wants := by
  have hr : mask.wants ⟨pc, mode, data⟩ = true := hm
  rw [Option.filter_some_pos hr]

/-- A record of a mode that is not in the mask leaves nothing. -/
theorem none_eq_filter {mode : Mode} (hm : mask.contains mode = false) (pc : UInt64)
    (data : Int64) :
    none = (some ⟨pc, mode, data⟩ : Option Record).filter mask.wants := by
  have hr : mask.wants ⟨pc, mode, data⟩ = false := hm
  rw [Option.filter_some_neg hr]

theorem yield_eq_filter (h : c.pc = d.pc) (mode : Mode) (data : Int64) :
    c.yield mask mode data = (d.yield .all mode data).filter mask.wants := by
  rw [yield_all, yield, h]
  cases hm : mask.contains mode with
  | true => exact some_eq_filter hm _ _
  | false => exact none_eq_filter hm _ _

/-- Where positions of neither kind are followed, neither position mode is wanted. -/
theorem contains_of_intersects_eq_false {mode : Mode}
    (hmode : mode = .position ∨ mode = .statementPosition)
    (h : mask.intersects .positions = false) : mask.contains mode = false := by
  rw [Mask.intersects_positions, Bool.or_eq_false_iff] at h
  rcases hmode with rfl | rfl
  · exact h.1
  · exact h.2

/-- The last id may differ where ids are not wanted. -/
theorem Agrees.with_lastId (h : Agrees mask c d) (hm : mask.contains .codeTargetWithId = false)
    (id : Int32) : Agrees mask c { d with lastId := id } := by
  refine ⟨h.rest, h.pc, fun hm' => ?_, h.lastPosition⟩
  rw [hm] at hm'
  cases hm'

/-- The last position may differ where positions are not followed. -/
theorem Agrees.with_lastPosition (h : Agrees mask c d)
    (hp : mask.intersects .positions = false) (position : Int32) :
    Agrees mask c { d with lastPosition := position } := by
  refine ⟨h.rest, h.pc, h.lastId, fun hp' => ?_⟩
  rw [hp] at hp'
  cases hp'

/-! ## Data bytes -/

theorem locatable_track_sameAnswer (h : Agrees mask c d) (b : UInt8) {mode : Mode}
    (hmode : mode = .position ∨ mode = .statementPosition) :
    SameAnswer mask (.ok (locatable.track mask c b mode))
      (.ok (locatable.track .all d b mode)) := by
  have hall : Mask.all.intersects .positions = true := by decide
  unfold locatable.track
  rw [if_pos hall]
  cases hp : mask.intersects .positions with
  | true =>
    rw [if_pos rfl, h.lastPosition hp]
    exact .of_eq (yield_eq_filter h.pc _ _) ⟨h.rest, h.pc, h.lastId, fun _ => rfl⟩
  | false =>
    -- only the reader of everything moves its last position, and finds what is not wanted
    simp only [yield_all]
    have hm := contains_of_intersects_eq_false hmode hp
    exact .of_eq (none_eq_filter hm _ _) (h.with_lastPosition hp _)

theorem locatable_sameAnswer (h : Agrees mask c d) (b : UInt8) :
    SameAnswer mask (.ok (locatable mask c b)) (.ok (locatable .all d b)) := by
  unfold locatable
  cases Wire.shortKindOf b with
  | codeWithId =>
    simp only [Mask.contains_all, if_true]
    cases hm : mask.contains .codeTargetWithId with
    | true =>
      rw [if_pos rfl, h.lastId hm, h.pc]
      exact .of_eq (some_eq_filter hm _ _) ⟨h.rest, rfl, fun _ => rfl, h.lastPosition⟩
    | false => exact .of_eq (none_eq_filter hm _ _) (h.with_lastId hm _)
  | deoptReason => exact .of_eq (yield_eq_filter h.pc _ _) h
  | position => exact locatable_track_sameAnswer h b (.inl rfl)
  | statementPosition => exact locatable_track_sameAnswer h b (.inr rfl)

/-! ## Payloads -/

/-- Passing over bytes uses up what reading them would, and fails where reading them would. -/
theorem skipBytes_eq_readBytes (k : Nat) (bytes : List UInt8) :
    skipBytes k bytes = readBytes k bytes >>= fun answer => .ok answer.2 := by
  induction k generalizing bytes with
  | zero => rfl
  | succ k ih =>
    cases bytes with
    | nil => rfl
    | cons b bytes =>
      rw [skipBytes, ih, readBytes]
      cases readBytes k bytes with
      | error fault => rfl
      | ok answer => rfl

/-- A payload that is passed over, as one that is read and dropped. -/
theorem payload_skip_eq (c : Cursor) (k : Nat) :
    payload.skip c k =
      readBytes k c.rest >>= fun answer => .ok (none, { c with rest := answer.2 }) := by
  rw [payload.skip, skipBytes_eq_readBytes]
  cases readBytes k c.rest with
  | error fault => rfl
  | ok answer => rfl

theorem readInt_bind {α : Type} (bytes : List UInt8)
    (f : Int32 × List UInt8 → Except Fault α) :
    readInt bytes >>= f =
      readBytes Wire.intSize bytes >>= fun answer =>
        f ((UInt32.ofNat answer.1).toInt32, answer.2) := by
  rw [readInt]
  cases readBytes Wire.intSize bytes with
  | error fault => rfl
  | ok answer => rfl

theorem readPointer_bind {α : Type} (bytes : List UInt8)
    (f : Int64 × List UInt8 → Except Fault α) :
    readPointer bytes >>= f =
      readBytes Wire.pointerSize bytes >>= fun answer =>
        f ((UInt64.ofNat answer.1).toInt64, answer.2) := by
  rw [readPointer]
  cases readBytes Wire.pointerSize bytes with
  | error fault => rfl
  | ok answer => rfl

theorem payload_track_sameAnswer (h : Agrees mask c d) {mode : Mode}
    (hmode : mode = .position ∨ mode = .statementPosition) :
    SameAnswer mask (payload.track mask c mode) (payload.track .all d mode) := by
  have hall : Mask.all.intersects .positions = true := by decide
  unfold payload.track
  rw [if_pos hall, payload_skip_eq, readInt_bind, readInt_bind, h.rest]
  cases hp : mask.intersects .positions with
  | true =>
    rw [if_pos rfl, h.lastPosition hp]
    refine .bind fun answer => ?_
    exact .of_eq (yield_eq_filter h.pc _ _) ⟨rfl, h.pc, h.lastId, fun _ => rfl⟩
  | false =>
    refine .bind fun answer => ?_
    simp only [yield_all]
    have hm := contains_of_intersects_eq_false hmode hp
    have hread : Agrees mask { c with rest := answer.2 } { d with rest := answer.2 } :=
      ⟨rfl, h.pc, h.lastId, h.lastPosition⟩
    exact .of_eq (none_eq_filter hm _ _) (hread.with_lastPosition hp _)

theorem payload_codeTargetWithId_sameAnswer (h : Agrees mask c d) :
    SameAnswer mask (payload mask c .codeTargetWithId) (payload .all d .codeTargetWithId) := by
  simp only [payload, payload_skip_eq, readInt_bind, Mask.contains_all, if_true, h.rest]
  cases hm : mask.contains .codeTargetWithId with
  | true =>
    rw [if_pos rfl, h.lastId hm, h.pc]
    refine .bind fun answer => ?_
    exact .of_eq (some_eq_filter hm _ _) ⟨rfl, rfl, fun _ => rfl, h.lastPosition⟩
  | false =>
    refine .bind fun answer => ?_
    have hread : Agrees mask { c with rest := answer.2 } { d with rest := answer.2 } :=
      ⟨rfl, h.pc, h.lastId, h.lastPosition⟩
    exact .of_eq (none_eq_filter hm _ _) (hread.with_lastId hm _)

theorem payload_untracked_sameAnswer (h : Agrees mask c d) {mode : Mode}
    (hid : mode ≠ .codeTargetWithId) (hpos : mode.isPosition = false) :
    SameAnswer mask (payload mask c mode) (payload .all d mode) := by
  have hread (rest : List UInt8) : Agrees mask { c with rest := rest } { d with rest := rest } :=
    ⟨rfl, h.pc, h.lastId, h.lastPosition⟩
  rw [payload_of_untracked hid hpos, payload_of_untracked hid hpos]
  simp only [payload_skip_eq, readInt_bind, readPointer_bind, Mask.contains_all, if_true, h.rest]
  cases mode.payload with
  | none => exact .of_eq (yield_eq_filter h.pc _ _) h
  | int =>
    cases hm : mask.contains mode with
    | true =>
      rw [if_pos rfl, h.pc]
      exact .bind fun answer => .of_eq (some_eq_filter hm _ _) (h.pc ▸ hread answer.2)
    | false => exact .bind fun answer => .of_eq (none_eq_filter hm _ _) (hread answer.2)
  | pointer =>
    cases hm : mask.contains mode with
    | true =>
      rw [if_pos rfl, h.pc]
      exact .bind fun answer => .of_eq (some_eq_filter hm _ _) (h.pc ▸ hread answer.2)
    | false => exact .bind fun answer => .of_eq (none_eq_filter hm _ _) (hread answer.2)

theorem payload_sameAnswer (h : Agrees mask c d) (mode : Mode) :
    SameAnswer mask (payload mask c mode) (payload .all d mode) := by
  by_cases hid : mode = .codeTargetWithId
  · subst hid
    exact payload_codeTargetWithId_sameAnswer h
  by_cases hposition : mode = .position
  · subst hposition
    exact payload_track_sameAnswer h (.inl rfl)
  by_cases hstatement : mode = .statementPosition
  · subst hstatement
    exact payload_track_sameAnswer h (.inr rfl)
  · refine payload_untracked_sameAnswer h hid ?_
    simp [Mode.isPosition, hposition, hstatement]

/-! ## Items -/

theorem item_sameAnswer (h : Agrees mask c d) (first : UInt8) :
    SameAnswer mask (item mask c first) (item .all d first) := by
  unfold item
  rw [h.pc, h.rest]
  split
  · refine .bind fun pc => ?_
    exact .of_eq (yield_eq_filter rfl _ _) (h.moved d.rest pc)
  · refine .bind fun pc => ?_
    exact .of_eq (yield_eq_filter rfl _ _) (h.moved d.rest pc)
  · refine .bind fun pc => .bind fun answer => ?_
    exact locatable_sameAnswer (h.moved answer.2 pc) answer.1
  · split
    · exact .fault _
    · -- a jump is taken by both and finds nothing for either
      refine .bind fun jump => .bind fun pc => ?_
      exact .of_eq rfl (h.moved jump.2 pc)
    · refine .bind fun distance => .bind fun pc => ?_
      exact payload_sameAnswer (h.moved distance.2 pc) _

end Step

/-- Cursors that agree find the same records of the mask, and meet the same end. -/
theorem trace_eq_only {mask : Mask} {c d : Cursor} (h : Agrees mask c d) :
    trace mask c = (trace .all d).only mask := by
  fun_induction trace .all d generalizing c with
  | case1 d hd =>
    rw [trace_nil (h.rest.trans hd)]
    rfl
  | case2 d first rest hd fault hitem =>
    have hsame := item_sameAnswer (h.moved rest d.pc) first
    rw [hitem, ← h.pc] at hsame
    rw [trace_cons (h.rest.trans hd)]
    generalize item mask { c with rest := rest } first = answer at hsame ⊢
    cases hsame
    rfl
  | case3 d first rest hd found d' hitem bound ih =>
    have hsame := item_sameAnswer (h.moved rest d.pc) first
    rw [hitem, ← h.pc] at hsame
    rw [trace_cons (h.rest.trans hd), Trace.only_after]
    generalize item mask { c with rest := rest } first = answer at hsame ⊢
    cases hsame with
    | found r hagree => rw [traceItem, ih hagree]

/-- Of the same bytes a mask leaves the records of its modes. -/
theorem trace_mask (mask : Mask) (c : Cursor) : trace mask c = (trace .all c).only mask :=
  trace_eq_only ⟨rfl, rfl, fun _ => rfl, fun _ => rfl⟩

end Cursor

/-- **A mask filters.** Reading any bytes with a mask that is not empty finds the records that
reading everything finds, less those of other modes, and ends the same way. -/
theorem walkStream_eq_filter (stream : ByteArray) (pc : UInt64) (mask : Mask)
    (hmask : mask.isEmpty = false) :
    walkStream stream pc mask none = (walkStream stream pc .all none).only mask := by
  apply Walk.toTrace_injective
  have hall : Mask.all.isEmpty = false := by decide
  rw [Walk.toTrace_only, toTrace_walkStream stream pc hmask, toTrace_walkStream stream pc hall]
  exact Cursor.trace_eq_only ⟨rfl, rfl, fun _ => rfl, fun _ => rfl⟩

/-- A position, a code target and a byte that names no mode. -/
theorem walkStream_eq_filter_invalid :
    Mask.positions.isEmpty = false ∧
      walkStream ⟨#[91, 5, 25, 10]⟩ 16 .positions none =
        ⟨#[⟨18, .position, 6⟩], some (.invalidMode 22)⟩ := by
  have hwalk := walkStream_eq_filter ⟨#[91, 5, 25, 10]⟩ 16 .positions (by decide)
  exact ⟨by decide, hwalk.trans (by decide +kernel)⟩

end CodeReloc
