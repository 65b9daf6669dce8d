import CodeReloc.Proofs.Stream.Calls
import CodeReloc.Stream.Checked

set_option autoImplicit false

/-!
# The checks inside a form

None of the checks that are made while the bytes of a record are put down is ever found broken: a
form with its checks comes out as the form without them. The bytes of any calls are therefore forms
with their checks, one behind the other.

Main statement: `Encoder.formed_run`.
-/

namespace CodeReloc

open Wire

/-! ## Forms with their checks -/

namespace Checked

variable {distance : Nat}

theorem longModeByte_code (mode : Mode) :
    longModeByte mode.code = .ok (pack mode.code Tag.long.code) := by
  have hcode : mode.code < 1 <<< longTagBits := by cases mode <;> decide
  rw [longModeByte, if_pos hcode]

theorem testUnsigned_ofNat (h : distance < 2 ^ 32) :
    testUnsigned (Int64.ofNat distance) smallPcBits = .ok (decide (distance < 64)) := by
  have hbits : 0 < smallPcBits ∧ smallPcBits < 64 := by decide
  have hbound : ((1 <<< smallPcBits : Nat) : Int) = 64 := by decide
  have hvalue : (Int64.ofNat distance).toInt = distance := Int64.toInt_ofNat_of_lt (by omega)
  rw [testUnsigned, if_pos hbits]
  congr 1
  rw [Bool.eq_iff_iff, inUnsigned_iff (by decide), hbound, hvalue, decide_eq_true_eq]
  omega

/-- Only six bits of the distance are left to the record. -/
theorem jump_eq (h : distance < 2 ^ 32) :
    jump distance = .ok (jumpBytes distance, distance % 64) := by
  rw [jump, testUnsigned_ofNat h]
  by_cases hsmall : distance < 64
  · simp only [hsmall, decide_true, jumpBytes, Nat.mod_eq_of_lt, bind, Except.bind, if_true, pure,
      Except.pure]
  · have hdigit : 0 < distance / 64 := by omega
    simp only [hsmall, decide_false, jumpBytes, longModeByte_code, require, hdigit, decide_true,
      bind, Except.bind, if_true, if_false, Bool.false_eq_true, pure, Except.pure]

theorem shortPcByte_rest (distance : Nat) (tag : Tag) :
    shortPcByte (distance % 64) tag = .ok (pack (distance % 64) tag.code) := by
  have hmax : maxSmallPc = 63 := by decide
  have hrest : distance % 64 ≤ maxSmallPc := by omega
  rw [shortPcByte, if_pos hrest]

theorem shortForm_eq (tag : Tag) (h : distance < 2 ^ 32) :
    shortForm distance tag = .ok (CodeReloc.shortForm distance tag) := by
  simp only [shortForm, jump_eq h, shortPcByte_rest, bind, Except.bind, pure, Except.pure,
    CodeReloc.shortForm]

theorem locatableForm_eq (kind : ShortKind) (data : Int32) (h : distance < 2 ^ 32) :
    locatableForm distance kind data = .ok (CodeReloc.locatableForm distance kind data) := by
  simp only [locatableForm, shortForm_eq _ h, bind, Except.bind, pure, Except.pure,
    CodeReloc.locatableForm]

theorem longForm_eq (mode : Mode) (h : distance < 2 ^ 32) :
    longForm distance mode = .ok (CodeReloc.longForm distance mode) := by
  simp only [longForm, jump_eq h, longModeByte_code, bind, Except.bind, pure, Except.pure,
    CodeReloc.longForm]

theorem deltaForm_eq (mode : Mode) (kind : ShortKind) (delta : Int32) (h : distance < 2 ^ 32) :
    deltaForm distance mode kind delta = .ok (CodeReloc.deltaForm distance mode kind delta) := by
  have hbits : 0 < shortDataBits ∧ shortDataBits < 64 := by decide
  rw [deltaForm, testSigned, if_pos hbits, CodeReloc.deltaForm]
  cases inSigned delta.toInt64 shortDataBits with
  | true => exact bind_eq_ok.2 ⟨true, rfl, locatableForm_eq kind delta h⟩
  | false =>
    have hlong := longForm_eq mode h
    exact bind_eq_ok.2 ⟨false, rfl, bind_eq_ok.2 ⟨_, hlong, rfl⟩⟩

end Checked

/-! ## Bytes made of such forms -/

/-- The bytes of one form, put down with its checks. -/
inductive Formed : List UInt8 → Prop where
  | short {distance : Nat} {tag : Tag} {bytes : List UInt8}
      (h : Checked.shortForm distance tag = .ok bytes) : Formed bytes
  | locatable {distance : Nat} {kind : ShortKind} {data : Int32} {bytes : List UInt8}
      (h : Checked.locatableForm distance kind data = .ok bytes) : Formed bytes
  | delta {distance : Nat} {mode : Mode} {kind : ShortKind} {delta : Int32} {bytes : List UInt8}
      (h : Checked.deltaForm distance mode kind delta = .ok bytes) : Formed bytes
  | long {distance : Nat} {mode : Mode} {bytes : List UInt8} (data : Int64)
      (h : Checked.longForm distance mode = .ok bytes) :
      Formed (bytes ++ payloadBytes mode data)

/-- Bytes that are such forms, one behind the other. -/
def MadeOfForms (bytes : List UInt8) : Prop :=
  ∃ forms : List (List UInt8), (∀ form ∈ forms, Formed form) ∧ bytes = forms.flatten

namespace MadeOfForms

theorem nil : MadeOfForms [] := ⟨[], by simp, rfl⟩

theorem of_formed {bytes : List UInt8} (h : Formed bytes) : MadeOfForms bytes :=
  ⟨[bytes], by simpa using h, by simp⟩

theorem append {first second : List UInt8} (h : MadeOfForms first) (h' : MadeOfForms second) :
    MadeOfForms (first ++ second) := by
  obtain ⟨forms, hforms, rfl⟩ := h
  obtain ⟨more, hmore, rfl⟩ := h'
  refine ⟨forms ++ more, ?_, List.flatten_append.symm⟩
  intro form hform
  rcases List.mem_append.1 hform with hform | hform
  · exact hforms form hform
  · exact hmore form hform

end MadeOfForms

namespace Encoder

variable {e e' : Encoder} {bytes : List UInt8}

theorem formed_heldBytes (he : e.Sound) : MadeOfForms e.heldBytes := by
  cases hheld : e.held with
  | none =>
    rw [heldBytes, hheld]
    exact .nil
  | some held =>
    rw [heldBytes, hheld]
    exact .of_formed (.delta (Checked.deltaForm_eq _ _ _ (he.distance_lt held hheld)))

theorem formed_add {r : Record} (he : e.Sound) (h : e.add r = .ok (bytes, e')) :
    MadeOfForms bytes := by
  obtain ⟨distance, -, -, hd, hadds⟩ := add_inv h
  cases hadds with
  | embeddedObject | codeTarget => exact .of_formed (.short (Checked.shortForm_eq _ hd))
  | id | statement => exact .of_formed (.delta (Checked.deltaForm_eq _ _ _ hd))
  | deoptReason => exact .of_formed (.locatable (Checked.locatableForm_eq _ _ hd))
  | newPosition => exact formed_heldBytes he
  | samePosition => exact .nil
  | long => exact .of_formed (.long _ (Checked.longForm_eq _ hd))

theorem formed_call (he : e.Sound) {c : Call} (h : e.call c = .ok (bytes, e')) :
    MadeOfForms bytes := by
  cases c with
  | finish =>
    cases h
    exact formed_heldBytes he
  | write r =>
    rcases call_write_inv h with ⟨-, hadd⟩ | ⟨-, added, rfl, hadd⟩
    · exact formed_add he hadd
    · exact (formed_heldBytes he).append (formed_add (.release e) hadd)

/-- **Calls put down nothing but forms that keep their checks.** -/
theorem formed_run (he : e.Sound) {calls : List Call} (h : e.run calls = .ok (bytes, e')) :
    MadeOfForms bytes := by
  -- the distance of a position that is held back stays small enough for its form
  induction calls generalizing e bytes with
  | nil =>
    cases h
    exact .nil
  | cons c calls ih =>
    obtain ⟨first, mid, more, hcall, hrun, rfl⟩ := run_cons_eq_ok.1 h
    exact (formed_call he hcall).append (ih (he.call hcall) hrun)

end Encoder

end CodeReloc
