import CodeReloc.Proofs.Stream.Filtering

set_option autoImplicit false

/-!
# Reading from another place

The places in a stream are differences, so the same bytes can be read from any start, and all places
that are found move along with it. For this it matters how an item depends on the running place: it
names a distance, and what it finds lies at the place that the distance leads to (`Cursor.Strides`).
Nothing else in an item looks at the place, and bytes that cannot be read are the same fault as a
place that leaves the range of addresses. So as long as the farthest place that a reading comes to
(`Cursor.reached`) stays in that range when it is moved, a moved reading goes the same way.

Main statement: `toTrace_walkStream_movedBy`.
-/

namespace CodeReloc

/-! ## One kind of fault -/

/-- The only fault of a computation is that there was nothing to read or no such place. -/
def OnlyBreach {α : Type} (x : Except Fault α) : Prop := ∀ fault, x = .error fault → fault = .breach

namespace OnlyBreach

variable {α β : Type} {x : Except Fault α} {f : α → Except Fault β}

theorem ok (a : α) : OnlyBreach (.ok a : Except Fault α) := by
  intro fault h
  cases h

theorem breach : OnlyBreach (.error .breach : Except Fault α) := by
  intro fault h
  cases h
  rfl

theorem bind (hx : OnlyBreach x) (hf : ∀ a, OnlyBreach (f a)) : OnlyBreach (x >>= f) := by
  intro fault h
  rcases bind_eq_error.1 h with hfirst | ⟨a, -, hnext⟩
  · exact hx fault hfirst
  · exact hf a fault hnext

theorem readBytes (k : Nat) (bytes : List UInt8) : OnlyBreach (readBytes k bytes) := by
  induction k generalizing bytes with
  | zero => exact .ok _
  | succ k ih =>
    cases bytes with
    | nil => exact .breach
    | cons b bytes =>
      rw [CodeReloc.readBytes]
      cases hrest : CodeReloc.readBytes k bytes with
      | ok answer => exact .ok _
      | error fault =>
        rw [ih bytes fault hrest]
        exact .breach

theorem readInt (bytes : List UInt8) : OnlyBreach (readInt bytes) :=
  bind (readBytes _ bytes) fun _ => .ok _

theorem readPointer (bytes : List UInt8) : OnlyBreach (readPointer bytes) :=
  bind (readBytes _ bytes) fun _ => .ok _

theorem readByte (bytes : List UInt8) : OnlyBreach (readByte bytes) := by
  cases bytes with
  | nil => exact .breach
  | cons b bytes => exact .ok _

end OnlyBreach

/-! ## Moving along -/

/-- The record with its place counted from `base`. -/
def Record.movedBy (base : UInt64) (r : Record) : Record := { r with pc := base + r.pc }

/-- The trace with its places counted from `base`. -/
def Trace.movedBy (base : UInt64) (t : Trace) : Trace :=
  ⟨t.records.map (Record.movedBy base), t.stopped⟩

theorem Trace.movedBy_after (base : UInt64) (found : Option Record) (t : Trace) :
    (t.after found.toList).movedBy base =
      (t.movedBy base).after (found.map (Record.movedBy base)).toList := by
  cases found with
  | none => rfl
  | some r => simp [movedBy, after]

/-- Which records are wanted does not depend on where they lie. -/
theorem Trace.only_movedBy (base : UInt64) (mask : Mask) (t : Trace) :
    (t.movedBy base).only mask = (t.only mask).movedBy base := by
  simp only [movedBy, only, List.filter_map]
  rfl

namespace Cursor

/-- The cursor with its place counted from `base`. -/
def movedBy (base : UInt64) (c : Cursor) : Cursor := { c with pc := base + c.pc }

/-- What an item has come to, with its places counted from `base`. -/
def answerMovedBy (base : UInt64) (answer : Option Record × Cursor) : Option Record × Cursor :=
  (answer.1.map (Record.movedBy base), answer.2.movedBy base)

/-- What an item has come to, at a given place. -/
def answerAt (pc : UInt64) (answer : Option Record × Cursor) : Option Record × Cursor :=
  (answer.1.map fun r => { r with pc := pc }, { answer.2 with pc := pc })

theorem answerMovedBy_answerAt (base pc : UInt64) (answer : Option Record × Cursor) :
    answerMovedBy base (answerAt pc answer) = answerAt (base + pc) answer := by
  simp [answerMovedBy, answerAt, Record.movedBy, movedBy, Function.comp_def]

/-! ## What is found does not depend on the place -/

theorem locatable_at (c : Cursor) (b : UInt8) (pc : UInt64) :
    locatable .all { c with pc := pc } b = answerAt pc (locatable .all c b) := by
  have hall : Mask.all.intersects .positions = true := by decide
  unfold locatable locatable.track
  cases Wire.shortKindOf b with
  | codeWithId => simp [answerAt]
  | deoptReason => simp [answerAt, yield_all]
  | position => simp [answerAt, yield_all, hall]
  | statementPosition => simp [answerAt, yield_all, hall]

theorem track_at (c : Cursor) (mode : Mode) (pc : UInt64) :
    payload.track .all { c with pc := pc } mode =
      (payload.track .all c mode).map (answerAt pc) := by
  have hall : Mask.all.intersects .positions = true := by decide
  simp only [payload.track, hall, if_true, yield_all]
  cases readInt c.rest with
  | error fault => rfl
  | ok answer => rfl

theorem payload_at (c : Cursor) (mode : Mode) (pc : UInt64) :
    payload .all { c with pc := pc } mode = (payload .all c mode).map (answerAt pc) := by
  by_cases hid : mode = .codeTargetWithId
  · subst hid
    simp only [payload, Mask.contains_all, if_true]
    cases readInt c.rest with
    | error fault => rfl
    | ok answer => rfl
  by_cases hposition : mode = .position
  · subst hposition
    exact track_at c .position pc
  by_cases hstatement : mode = .statementPosition
  · subst hstatement
    exact track_at c .statementPosition pc
  have huntracked : mode.isPosition = false := by simp [Mode.isPosition, hposition, hstatement]
  rw [payload_of_untracked hid huntracked, payload_of_untracked hid huntracked]
  simp only [Mask.contains_all, if_true, yield_all]
  cases mode.payload with
  | none => rfl
  | int =>
    cases readInt c.rest with
    | error fault => rfl
    | ok answer => rfl
  | pointer =>
    cases readPointer c.rest with
    | error fault => rfl
    | ok answer => rfl

theorem payload_onlyBreach (c : Cursor) (mode : Mode) : OnlyBreach (payload .all c mode) := by
  have hall : Mask.all.intersects .positions = true := by decide
  have htrack : OnlyBreach (payload.track .all c mode) := by
    rw [payload.track, if_pos hall]
    exact .bind (.readInt _) fun _ => .ok _
  by_cases hid : mode = .codeTargetWithId
  · subst hid
    rw [payload, if_pos (Mask.contains_all _)]
    exact .bind (.readInt _) fun _ => .ok _
  by_cases hposition : mode = .position
  · subst hposition
    exact htrack
  by_cases hstatement : mode = .statementPosition
  · subst hstatement
    exact htrack
  have huntracked : mode.isPosition = false := by simp [Mode.isPosition, hposition, hstatement]
  rw [payload_of_untracked hid huntracked]
  simp only [Mask.contains_all, if_true]
  cases mode.payload with
  | none => exact .ok _
  | int => exact .bind (.readInt _) fun _ => .ok _
  | pointer => exact .bind (.readPointer _) fun _ => .ok _

/-! ## Items -/

/-- How an item depends on the running place: it cannot be read from anywhere, or it finds the same
things a fixed distance further on. -/
inductive Strides : (UInt64 → Except Fault (Option Record × Cursor)) → Prop where
  | fault (f : Fault) : Strides fun _ => .error f
  | found (n : Nat) {x : Except Fault (Option Record × Cursor)} (h : OnlyBreach x) :
      Strides fun pc => pcAfter pc n >>= fun q => x.map (answerAt q)

theorem Strides.of_eq {f g : UInt64 → Except Fault (Option Record × Cursor)} (h : Strides g)
    (hfg : ∀ pc, f pc = g pc) : Strides f := by
  rw [funext hfg]
  exact h

theorem item_strides (c : Cursor) (first : UInt8) :
    Strides fun pc => item .all { c with pc := pc } first := by
  unfold item
  cases Wire.tagOf first with
  | embeddedObject =>
    simp only [yield_all]
    exact .found (Wire.high first) (.ok (some ⟨0, .embeddedObject, 0⟩, c))
  | codeTarget =>
    simp only [yield_all]
    exact .found (Wire.high first) (.ok (some ⟨0, .codeTarget, 0⟩, c))
  | locatable =>
    have hdata : OnlyBreach (readByte c.rest >>= fun answer =>
        .ok (locatable .all { c with rest := answer.2 } answer.1)) :=
      .bind (.readByte _) fun _ => .ok _
    refine (Strides.found (Wire.high first) hdata).of_eq fun pc => ?_
    refine congrArg (pcAfter pc (Wire.high first) >>= ·) (funext fun q => ?_)
    cases readByte c.rest with
    | error fault => rfl
    | ok answer => exact congrArg Except.ok (locatable_at { c with rest := answer.2 } answer.1 q)
  | long =>
    simp only
    split
    · exact .fault _
    · -- a jump has no payload, and its distance is what is read
      cases readJump 4 c.rest with
      | error fault => exact .fault fault
      | ok answer => exact .found (64 * answer.1) (.ok (none, { c with rest := answer.2 }))
    · rename_i mode _ _
      cases readByte c.rest with
      | error fault => exact .fault fault
      | ok answer =>
        have hpayload := payload_onlyBreach { c with rest := answer.2 } mode
        refine (Strides.found answer.1.toNat hpayload).of_eq fun pc => ?_
        refine congrArg (pcAfter pc answer.1.toNat >>= ·) (funext fun q => ?_)
        exact payload_at { c with rest := answer.2 } mode q

/-- An item never leads back. -/
theorem Strides.pc_le {f : UInt64 → Except Fault (Option Record × Cursor)} (hf : Strides f)
    {pc : UInt64} {found : Option Record} {c' : Cursor} (h : f pc = .ok (found, c')) :
    pc.toNat ≤ c'.pc.toNat := by
  cases hf with
  | fault => cases h
  | @found n x hx =>
    obtain ⟨q, hq, h⟩ := bind_eq_ok.1 h
    have hplace := pcAfter_eq_ok.1 hq
    cases x with
    | error fault => cases h
    | ok answer =>
      cases h
      change pc.toNat ≤ q.toNat
      omega

/-- As long as it leads to a place within the range of addresses, an item that is read from a moved
place leads to the moved place. -/
theorem Strides.movedBy {f : UInt64 → Except Fault (Option Record × Cursor)} (hf : Strides f)
    {base pc : UInt64} (hpc : base.toNat + pc.toNat < 2 ^ 64)
    (hplace : ∀ found c', f pc = .ok (found, c') → base.toNat + c'.pc.toNat < 2 ^ 64) :
    f (base + pc) = (f pc).map (answerMovedBy base) := by
  have hmoved := toNat_add_of_lt hpc
  cases hf with
  | fault => rfl
  | @found n x hx =>
    simp only at hplace ⊢
    cases hq : pcAfter pc n with
    | error fault =>
      obtain ⟨hfar, rfl⟩ := pcAfter_eq_error.1 hq
      have hfault : pcAfter (base + pc) n = .error .breach := pcAfter_eq_error.2 ⟨by omega, rfl⟩
      rw [hfault]
      rfl
    | ok q =>
      have hlength := pcAfter_eq_ok.1 hq
      rw [hq] at hplace
      by_cases hin : base.toNat + q.toNat < 2 ^ 64
      · have hmovedq := toNat_add_of_lt hin
        have hnext : pcAfter (base + pc) n = .ok (base + q) := pcAfter_eq_ok.2 (by omega)
        rw [hnext]
        cases x with
        | error fault => rfl
        | ok answer => exact congrArg Except.ok (answerMovedBy_answerAt base q answer).symm
      · -- only what cannot be read anyway lies outside
        have hout : pcAfter (base + pc) n = .error .breach := pcAfter_eq_error.2 ⟨by omega, rfl⟩
        rw [hout]
        cases x with
        | ok answer => exact absurd (hplace _ _ rfl) hin
        | error fault =>
          rw [hx fault rfl]
          rfl

theorem pc_le_of_item {c c' : Cursor} {first : UInt8} {found : Option Record}
    (h : item .all c first = .ok (found, c')) : c.pc.toNat ≤ c'.pc.toNat :=
  (item_strides c first).pc_le h

theorem item_movedBy {base : UInt64} {c : Cursor} {first : UInt8}
    (hpc : base.toNat + c.pc.toNat < 2 ^ 64)
    (hplace : ∀ found c', item .all c first = .ok (found, c') →
      base.toNat + c'.pc.toNat < 2 ^ 64) :
    item .all (c.movedBy base) first = (item .all c first).map (answerMovedBy base) :=
  (item_strides c first).movedBy hpc hplace

/-! ## Whole readings -/

/-- The place that a reading of everything comes to. -/
def reached (c : Cursor) : UInt64 :=
  match hc : c.rest with
  | [] => c.pc
  | first :: rest =>
    match h : item .all { c with rest := rest } first with
    | .error _ => c.pc
    | .ok (_, c') =>
      have : c'.rest.length < c.rest.length := hc ▸ Nat.lt_succ_of_le (length_of_item h)
      c'.reached
termination_by c.rest.length

/-- The place that is reached lies behind all others. -/
theorem pc_le_reached (c : Cursor) : c.pc.toNat ≤ c.reached.toNat := by
  fun_induction reached c with
  | case1 c hc => exact Nat.le_refl _
  | case2 c first rest hc fault h => exact Nat.le_refl _
  | case3 c first rest hc found c' h bound ih =>
    exact Nat.le_trans (pc_le_of_item (c := { c with rest := rest }) h) ih

/-- A moved reading finds the moved records, and ends the same way. -/
theorem trace_movedBy {base : UInt64} (c : Cursor)
    (hplace : base.toNat + c.reached.toNat < 2 ^ 64) :
    trace .all (c.movedBy base) = (trace .all c).movedBy base := by
  have hpc := pc_le_reached c
  -- the place that is reached bounds those of all items, so each of them can be moved
  fun_induction reached c with
  | case1 c hc =>
    rw [trace_nil hc, trace_nil (c := c.movedBy base) hc]
    rfl
  | case2 c first rest hc fault h =>
    have hitem : item .all { c.movedBy base with rest := rest } first =
        (item .all { c with rest := rest } first).map (answerMovedBy base) := by
      refine item_movedBy (c := { c with rest := rest }) hplace ?_
      intro found c' hother
      rw [h] at hother
      cases hother
    rw [h] at hitem
    rw [trace_cons hc, h, trace_cons (c := c.movedBy base) hc]
    exact congrArg (traceItem .all) hitem
  | case3 c first rest hc found c' h bound ih =>
    have hnext := pc_le_reached c'
    have hitem : item .all { c.movedBy base with rest := rest } first =
        (item .all { c with rest := rest } first).map (answerMovedBy base) := by
      refine item_movedBy (c := { c with rest := rest }) ?_ ?_
      · change base.toNat + c.pc.toNat < 2 ^ 64
        omega
      · intro other d hother
        rw [h] at hother
        cases hother
        omega
    rw [h] at hitem
    rw [trace_cons hc, h, trace_cons (c := c.movedBy base) hc, traceItem, Trace.movedBy_after,
      ← ih hplace hnext]
    exact congrArg (traceItem .all) hitem

/-- The same with a mask. -/
theorem trace_mask_movedBy {base : UInt64} (mask : Mask) (c : Cursor)
    (hplace : base.toNat + c.reached.toNat < 2 ^ 64) :
    trace mask (c.movedBy base) = (trace mask c).movedBy base := by
  rw [trace_mask, trace_mask mask c, trace_movedBy c hplace, Trace.only_movedBy]

end Cursor

/-- The place that the bytes of a stream lead to, counted from nothing. -/
def lastPlace (stream : ByteArray) : UInt64 :=
  Cursor.reached ⟨(bytesOf stream).reverse, 0, 0, 0⟩

/-- **The places of a walk are counted from its start.** As long as the last of them is an address,
a walk from `base` finds the records of a walk from nothing, with their places counted from `base`,
and ends the same way; a code age sequence comes behind them. -/
theorem toTrace_walkStream_movedBy {stream : ByteArray} {base : UInt64} {mask : Mask}
    (age : Option UInt64) (hmask : mask.isEmpty = false)
    (hplace : base.toNat + (lastPlace stream).toNat < 2 ^ 64) :
    (walkStream stream base mask age).toTrace =
      ((walkStream stream 0 mask none).toTrace.movedBy base).closedBy
        (Reader.closing mask age).toList := by
  have hstart : (⟨(bytesOf stream).reverse, base, 0, 0⟩ : Cursor) =
      Cursor.movedBy base ⟨(bytesOf stream).reverse, 0, 0, 0⟩ := by
    rw [Cursor.movedBy, UInt64.add_zero]
  rw [toTrace_walkStream_age stream base age hmask, toTrace_walkStream stream 0 hmask, hstart,
    Cursor.trace_mask_movedBy mask _ hplace]

end CodeReloc
