import Mathlib.Algebra.Group.Nat.Defs
import CodeReloc.Stream.Writer

set_option autoImplicit false

/-!
# What adding a record does

`Encoder.add` makes a few checks and then goes one of eight ways. `Encoder.Adds` lists them, with
what was checked, the bytes and the next state, so that a law of an encoder is one case for each way
(`Encoder.add_inv`). A position that is held back keeps its distance below `2 ^ 32` and stands for
the last record (`Encoder.Sound`), and every form is short.

Main statements: `Encoder.add_inv`, `Encoder.add_of_adds`, `Encoder.Sound.add`,
`length_heldBytes_le` and `length_add_le`.
-/

namespace CodeReloc

open Wire

/-- The payload of a record whose data is not taken as a difference. -/
def payloadBytes (mode : Mode) (data : Int64) : List UInt8 :=
  match mode.payload with
  | .none => []
  | .int => intBytes data.toInt32
  | .pointer => pointerBytes data

namespace Encoder

/-- The state after a record that is taken as a difference to nothing but the last place. -/
def moved (e : Encoder) (r : Record) : Encoder := { e with lastPc := r.pc, lastMode := some r.mode }

/-- The modes that have a form of their own. The others are written in the long form. -/
def hasOwnForm (mode : Mode) : Bool :=
  mode == .embeddedObject || mode == .codeTarget || mode == .codeTargetWithId ||
    mode == .deoptReason || mode.isPosition

/-- What the position that is held back becomes when another one at its place replaces it. Without
one, the new one counts from nothing. -/
def replaced (e : Encoder) (delta : Int32) : HeldPosition :=
  ⟨(e.held.getD ⟨0, 0⟩).distance, (e.held.getD ⟨0, 0⟩).delta + delta⟩

/-- The ways in which a record that lies `distance` behind the last one is added. -/
inductive Adds (e : Encoder) (r : Record) (distance : Nat) : List UInt8 → Encoder → Prop where
  | embeddedObject (hmode : r.mode = .embeddedObject) :
      Adds e r distance (shortForm distance .embeddedObject) (e.moved r)
  | codeTarget (hmode : r.mode = .codeTarget) :
      Adds e r distance (shortForm distance .codeTarget) (e.moved r)
  | id (hmode : r.mode = .codeTargetWithId) (hword : inSigned r.data 32 = true) :
      Adds e r distance
        (deltaForm distance .codeTargetWithId .codeWithId (r.data.toInt32 - e.lastId))
        { e.moved r with lastId := r.data.toInt32 }
  | deoptReason (hmode : r.mode = .deoptReason) (hdata : inUnsigned r.data shortDataBits = true) :
      Adds e r distance (locatableForm distance .deoptReason r.data.toInt32) (e.moved r)
  | statement (hmode : r.mode = .statementPosition) (hword : inSigned r.data 32 = true) :
      Adds e r distance
        (deltaForm distance .statementPosition .statementPosition
          (r.data.toInt32 - e.lastPosition))
        { e.moved r with lastPosition := r.data.toInt32 }
  | newPosition (hmode : r.mode = .position) (hword : inSigned r.data 32 = true)
      (hnew : distance ≠ 0 ∨ e.lastMode ≠ some .position) :
      Adds e r distance e.heldBytes
        { e.moved r with
          lastPosition := r.data.toInt32
          held := some ⟨distance, r.data.toInt32 - e.lastPosition⟩ }
  | samePosition (hmode : r.mode = .position) (hword : inSigned r.data 32 = true)
      (hzero : distance = 0) (hlast : e.lastMode = some .position) :
      Adds e r distance []
        { e.moved r with
          lastPosition := r.data.toInt32
          held := some (e.replaced (r.data.toInt32 - e.lastPosition)) }
  | long (hmode : hasOwnForm r.mode = false) :
      Adds e r distance (longForm distance r.mode ++ payloadBytes r.mode r.data) (e.moved r)

theorem distanceTo_eq_ok {e : Encoder} {r : Record} {distance : Nat} :
    e.distanceTo r = .ok distance ↔
      r.mode.isWritable = true ∧ r.pc.toNat = e.lastPc.toNat + distance ∧ distance < 2 ^ 32 := by
  simp only [distanceTo, require_bind_eq_ok, decide_eq_true_eq, UInt64.le_iff_toNat_le, pure,
    Except.pure, Except.ok.injEq]
  constructor
  · rintro ⟨hwritable, hle, hlt, rfl⟩
    exact ⟨hwritable, by omega, hlt⟩
  · rintro ⟨hwritable, hpc, hlt⟩
    exact ⟨hwritable, by omega, by omega, by omega⟩

theorem word_eq_ok {r : Record} {n : Int32} :
    r.word = .ok n ↔ inSigned r.data 32 = true ∧ n = r.data.toInt32 := by
  rw [Record.word, require_bind_eq_ok]
  simp only [pure, Except.pure, Except.ok.injEq, eq_comm (a := n)]

/-- Everything that adding a record can do. -/
theorem add_inv {e e' : Encoder} {r : Record} {bytes : List UInt8}
    (h : e.add r = .ok (bytes, e')) :
    ∃ distance, r.mode.isWritable = true ∧ r.pc.toNat = e.lastPc.toNat + distance ∧
      distance < 2 ^ 32 ∧ Adds e r distance bytes e' := by
  obtain ⟨distance, hdistance, h⟩ := bind_eq_ok.1 h
  obtain ⟨hwritable, hpc, hlt⟩ := distanceTo_eq_ok.1 hdistance
  refine ⟨distance, hwritable, hpc, hlt, ?_⟩
  obtain ⟨pc, mode, data⟩ := r
  -- the modes that have a form of their own come first, and all others are written alike
  cases mode
  case embeddedObject => cases h; exact .embeddedObject rfl
  case codeTarget => cases h; exact .codeTarget rfl
  case codeTargetWithId =>
    obtain ⟨id, hid, h⟩ := bind_eq_ok.1 h
    obtain ⟨hword, rfl⟩ := word_eq_ok.1 hid
    cases h
    exact .id rfl hword
  case deoptReason =>
    obtain ⟨hdata, h⟩ := require_bind_eq_ok.1 h
    cases h
    exact .deoptReason rfl hdata
  case statementPosition =>
    obtain ⟨position, hposition, h⟩ := bind_eq_ok.1 h
    obtain ⟨hword, rfl⟩ := word_eq_ok.1 hposition
    cases h
    exact .statement rfl hword
  case position =>
    obtain ⟨position, hposition, h⟩ := bind_eq_ok.1 h
    obtain ⟨hword, rfl⟩ := word_eq_ok.1 hposition
    simp only at h
    split at h
    · rename_i hnew
      cases h
      exact .newPosition rfl hword hnew
    · rename_i hsame
      cases h
      rw [not_or, Decidable.not_not, Decidable.not_not] at hsame
      exact .samePosition rfl hword hsame.1 hsame.2
  all_goals cases h; exact .long rfl

/-- A record is added in any way that its checks allow. -/
theorem add_of_adds {e e' : Encoder} {r : Record} {distance : Nat} {bytes : List UInt8}
    (hwritable : r.mode.isWritable = true) (hpc : r.pc.toNat = e.lastPc.toNat + distance)
    (hlt : distance < 2 ^ 32) (h : Adds e r distance bytes e') : e.add r = .ok (bytes, e') := by
  refine bind_eq_ok.2 ⟨distance, distanceTo_eq_ok.2 ⟨hwritable, hpc, hlt⟩, ?_⟩
  obtain ⟨pc, mode, data⟩ := r
  cases h with
  | embeddedObject hmode | codeTarget hmode =>
    subst hmode
    rfl
  | id hmode hword | statement hmode hword =>
    subst hmode
    exact bind_eq_ok.2 ⟨_, word_eq_ok.2 ⟨hword, rfl⟩, rfl⟩
  | deoptReason hmode hdata =>
    subst hmode
    exact require_bind_eq_ok.2 ⟨hdata, rfl⟩
  | newPosition hmode hword hnew =>
    subst hmode
    refine bind_eq_ok.2 ⟨_, word_eq_ok.2 ⟨hword, rfl⟩, ?_⟩
    exact if_pos hnew
  | samePosition hmode hword hzero hlast =>
    subst hmode
    refine bind_eq_ok.2 ⟨_, word_eq_ok.2 ⟨hword, rfl⟩, ?_⟩
    exact if_neg (not_or.2 ⟨not_not_intro hzero, not_not_intro hlast⟩)
  | long hmode => cases mode <;> first | rfl | cases hmode

/-! ## Held positions -/

/-- A position that is held back lies less than `2 ^ 32` behind the record before it and is the
last record. -/
structure Sound (e : Encoder) : Prop where
  distance_lt : ∀ held, e.held = some held → held.distance < 2 ^ 32
  lastMode_eq : ∀ held, e.held = some held → e.lastMode = some .position

/-- An encoder that holds nothing back. -/
theorem Sound.of_held_eq_none {e : Encoder} (h : e.held = none) : e.Sound := by
  constructor
  · intro held hheld
    rw [h] at hheld
    cases hheld
  · intro held hheld
    rw [h] at hheld
    cases hheld

theorem Sound.start : Encoder.start.Sound := .of_held_eq_none rfl

theorem Sound.release (e : Encoder) : e.release.Sound := .of_held_eq_none rfl

/-- The distance of a position that replaces another one is that of the other one. -/
theorem Sound.replaced_distance_lt {e : Encoder} (he : e.Sound) (delta : Int32) :
    (e.replaced delta).distance < 2 ^ 32 := by
  cases hheld : e.held with
  | none => simp [replaced, hheld]
  | some held => simpa [replaced, hheld] using he.distance_lt held hheld

theorem Adds.lastPc_eq {e e' : Encoder} {r : Record} {distance : Nat} {bytes : List UInt8}
    (h : Adds e r distance bytes e') : e'.lastPc = r.pc := by
  cases h <;> rfl

/-- Only a position changes what is held back. -/
theorem held_add {e e' : Encoder} {r : Record} {bytes : List UInt8} (hmode : r.mode ≠ .position)
    (h : e.add r = .ok (bytes, e')) : e'.held = e.held := by
  obtain ⟨distance, -, -, -, hadds⟩ := add_inv h
  cases hadds with
  | embeddedObject | codeTarget | id | deoptReason | statement | long => rfl
  | newPosition hposition => exact absurd hposition hmode
  | samePosition hposition => exact absurd hposition hmode

/-- A position brings out the one that is held back or takes its place. -/
theorem Adds.of_position {e e' : Encoder} {r : Record} {distance : Nat} {bytes : List UInt8}
    (h : Adds e r distance bytes e') (hmode : r.mode = .position) :
    inSigned r.data 32 = true ∧
      ((bytes = e.heldBytes ∧ (distance ≠ 0 ∨ e.lastMode ≠ some .position) ∧
          e' = { e.moved r with
            lastPosition := r.data.toInt32
            held := some ⟨distance, r.data.toInt32 - e.lastPosition⟩ }) ∨
        (bytes = [] ∧ (distance = 0 ∧ e.lastMode = some .position) ∧
          e' = { e.moved r with
            lastPosition := r.data.toInt32
            held := some (e.replaced (r.data.toInt32 - e.lastPosition)) })) := by
  cases h with
  | newPosition _ hword hnew => exact ⟨hword, Or.inl ⟨rfl, hnew, rfl⟩⟩
  | samePosition _ hword hzero hlast => exact ⟨hword, Or.inr ⟨rfl, ⟨hzero, hlast⟩, rfl⟩⟩
  | embeddedObject hother | codeTarget hother | id hother | deoptReason hother
  | statement hother =>
    rw [hmode] at hother
    cases hother
  | long hother =>
    rw [hmode] at hother
    cases hother

/-- A record of another mode follows only once nothing is held back. -/
theorem Sound.add {e e' : Encoder} {r : Record} {bytes : List UInt8} (he : e.Sound)
    (hheld : r.mode ≠ .position → e.held = none) (h : e.add r = .ok (bytes, e')) : e'.Sound := by
  by_cases hmode : r.mode = .position
  · obtain ⟨distance, -, -, hd, hadds⟩ := add_inv h
    rcases (hadds.of_position hmode).2 with ⟨-, -, rfl⟩ | ⟨-, -, rfl⟩
    · -- the new position is held back at its own distance
      refine ⟨fun held heq => ?_, fun _ _ => congrArg some hmode⟩
      cases heq
      exact hd
    · -- the new position keeps the distance of the one that it replaces
      refine ⟨fun held heq => ?_, fun _ _ => congrArg some hmode⟩
      cases heq
      exact he.replaced_distance_lt _
  · exact .of_held_eq_none ((held_add hmode h).trans (hheld hmode))

end Encoder

/-! ## Lengths -/

theorem length_jumpChunks_le {k n : Nat} (h : n < 128 ^ (k + 1)) :
    (jumpChunks n).length ≤ k + 1 := by
  induction k generalizing n with
  | zero =>
    have hn : n < 128 := h
    rw [jumpChunks, if_pos hn]
    exact Nat.le_refl 1
  | succ k ih =>
    rw [jumpChunks]
    split
    · simp
    · have hdiv : n / 128 < 128 ^ (k + 1) := by
        rw [Nat.div_lt_iff_lt_mul (by decide), ← Nat.pow_succ]
        exact h
      exact Nat.succ_le_succ (ih hdiv)

theorem length_jumpBytes_le {distance : Nat} (hd : distance < 2 ^ 32) :
    (jumpBytes distance).length ≤ 5 := by
  rw [jumpBytes]
  split
  · simp
  · have hchunks : (jumpChunks (distance / 64)).length ≤ 4 := length_jumpChunks_le (by omega)
    exact Nat.succ_le_succ hchunks

theorem length_shortForm_le {distance : Nat} (tag : Tag) (hd : distance < 2 ^ 32) :
    (shortForm distance tag).length ≤ 6 := by
  have hjump := length_jumpBytes_le hd
  simp only [shortForm, List.length_append, List.length_singleton]
  omega

theorem length_locatableForm_le {distance : Nat} (kind : ShortKind) (data : Int32)
    (hd : distance < 2 ^ 32) : (locatableForm distance kind data).length ≤ 7 := by
  have hshort := length_shortForm_le .locatable hd
  simp only [locatableForm, List.length_append, List.length_singleton]
  omega

theorem length_longForm_le {distance : Nat} (mode : Mode) (hd : distance < 2 ^ 32) :
    (longForm distance mode).length ≤ 7 := by
  have hjump := length_jumpBytes_le hd
  simp only [longForm, List.length_append, List.length_cons, List.length_nil]
  omega

theorem length_deltaForm_le {distance : Nat} (mode : Mode) (kind : ShortKind) (delta : Int32)
    (hd : distance < 2 ^ 32) : (deltaForm distance mode kind delta).length ≤ 11 := by
  rw [deltaForm]
  split
  · exact Nat.le_trans (length_locatableForm_le kind delta hd) (by decide)
  · have hlong := length_longForm_le mode hd
    simp only [List.length_append, intBytes, length_leBytes, intSize]
    omega

theorem length_payloadBytes_le (mode : Mode) (data : Int64) :
    (payloadBytes mode data).length ≤ 8 := by
  rw [payloadBytes]
  cases mode.payload with
  | none => exact Nat.zero_le 8
  | int => simp [intBytes, intSize]
  | pointer => simp [pointerBytes, pointerSize]

/-- A position that is held back takes at most 11 bytes. -/
theorem length_heldBytes_le {e : Encoder} (he : e.Sound) : e.heldBytes.length ≤ 11 := by
  rw [Encoder.heldBytes]
  split
  · exact Nat.zero_le 11
  · rename_i held hheld
    exact length_deltaForm_le _ _ _ (he.distance_lt held hheld)

/-- What is written for one record takes no more bytes than a record may. -/
theorem length_add_le {e e' : Encoder} {r : Record} {bytes : List UInt8} (he : e.Sound)
    (h : e.add r = .ok (bytes, e')) : bytes.length ≤ maxRecordSize := by
  obtain ⟨distance, -, -, hd, hadds⟩ := Encoder.add_inv h
  have hmax : maxRecordSize = 15 := rfl
  rw [hmax]
  cases hadds with
  | embeddedObject hmode => exact Nat.le_trans (length_shortForm_le _ hd) (by decide)
  | codeTarget hmode => exact Nat.le_trans (length_shortForm_le _ hd) (by decide)
  | id hmode hword => exact Nat.le_trans (length_deltaForm_le _ _ _ hd) (by decide)
  | deoptReason hmode hdata => exact Nat.le_trans (length_locatableForm_le _ _ hd) (by decide)
  | statement hmode hword => exact Nat.le_trans (length_deltaForm_le _ _ _ hd) (by decide)
  | newPosition hmode hword hnew => exact Nat.le_trans (length_heldBytes_le he) (by decide)
  | samePosition hmode hword hzero hlast => exact Nat.zero_le 15
  | long hmode =>
    have hlong := length_longForm_le r.mode hd
    have hpayload := length_payloadBytes_le r.mode r.data
    rw [List.length_append]
    omega

end CodeReloc
