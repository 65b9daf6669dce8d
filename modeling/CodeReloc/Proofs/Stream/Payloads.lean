import Mathlib.Data.List.Forall2
import CodeReloc.Proofs.Stream.Contract
import CodeReloc.Proofs.Stream.RoundTrip

set_option autoImplicit false

/-!
# Data that a stream has room for

A stream has room for six bits of a reason, for 32 bits of an id, a position, the size of a pool or
a count of arguments, for all 64 bits of a comment, and for no data of any other mode
(`Record.fits`). The contract asks of reasons, ids and positions that their data fits, so that a
list with a longer one is refused. It does not ask it of the sizes and the counts
(`Mode.isCutDown`): these are written as their lowest 32 bits, and a longer one reads back as another
number. Nothing else ever does: of a list that is encoded, every record that is not replaced reads
back with its own data exactly when the data fits.

Main statement: `encode_payloads`.
-/

namespace CodeReloc

open Wire

/-! ## Room for data -/

/-- A record of the mode carries data in a stream: in a data byte or in a payload. -/
def Mode.carriesData (mode : Mode) : Bool := mode == .deoptReason || mode.payload != .none

/-- The modes whose data is cut down to 32 bits unseen. -/
def Mode.isCutDown (mode : Mode) : Bool :=
  mode == .constPool || mode == .veneerPool || mode == .debugBreakSlotAtCall

/-- A stream has room for the data of the record. -/
def Record.fits (r : Record) : Bool :=
  if r.mode = .deoptReason then
    inUnsigned r.data shortDataBits
  else
    match r.mode.payload with
    | .none => r.data == 0
    | .int => inSigned r.data 32
    | .pointer => true

/-- What is cut down to 32 bits is the same number exactly when it has no more. -/
theorem toInt64_toInt32_eq_iff {data : Int64} :
    data.toInt32.toInt64 = data ↔ inSigned data 32 = true := by
  refine ⟨fun h => ?_, toInt64_toInt32_of_inSigned⟩
  rw [← h, inSigned_iff (by decide), Int32.toInt_toInt64]
  have hlow := data.toInt32.le_toInt
  have hhigh := data.toInt32.toInt_lt
  exact ⟨hlow, hhigh⟩

/-- The contract of a stream asks for data that fits, but for the modes whose data is cut down. -/
theorem Record.breaks_of_not_fits {r : Record} (last : UInt64)
    (hcarries : r.mode.carriesData = true) (hcut : r.mode.isCutDown = false)
    (hfits : r.fits = false) : ∃ fault, r.Breaks last fault := by
  obtain ⟨pc, mode, data⟩ := r
  -- a pointer has room for all data, and the modes at the end carry none
  cases mode
  case deoptReason => exact ⟨_, .reason rfl (inUnsigned_eq_false_iff.1 hfits)⟩
  case codeTargetWithId => exact ⟨_, .word (Or.inl rfl) (inSigned_eq_false_iff.1 hfits)⟩
  case position => exact ⟨_, .word (Or.inr (Or.inl rfl)) (inSigned_eq_false_iff.1 hfits)⟩
  case statementPosition => exact ⟨_, .word (Or.inr (Or.inr rfl)) (inSigned_eq_false_iff.1 hfits)⟩
  case comment => cases hfits
  case constPool | veneerPool | debugBreakSlotAtCall => cases hcut
  all_goals cases hcarries

/-- A record of a list that is encoded has data that fits, or is of a mode whose data is not
looked at. -/
theorem fits_of_encode {records : List Record} {stream : ByteArray}
    (h : encode records = .ok stream) {r : Record} (hr : r ∈ records)
    (hcarries : r.mode.carriesData = true) (hcut : r.mode.isCutDown = false) : r.fits = true := by
  cases hfits : r.fits with
  | true => rfl
  | false =>
    obtain ⟨before, after, rfl⟩ := List.append_of_mem hr
    obtain ⟨fault, hbreaks⟩ := r.breaks_of_not_fits (placeAfter before) hcarries hcut hfits
    exact absurd h (encode_ne_ok_of_broken ⟨before, r, after, rfl, hbreaks⟩ stream)

/-! ## What is read -/

/-- A record of a stream that is read from `start` on stands for a record that was written. -/
structure Record.ReadsAs (start : UInt64) (r found : Record) : Prop where
  pc_eq : found.pc = start + r.pc
  mode_eq : found.mode = r.mode
  /-- The data that was written is read exactly if it fits. -/
  data_eq_iff : found.data = r.data ↔ r.fits = true
  /-- What is cut down reads as the number of its lowest 32 bits. -/
  cut_eq : r.mode.isCutDown = true → found.data = r.data.toInt32.toInt64

/-- A record whose data is looked at and fits, and one whose data is not looked at. -/
theorem Record.readsAs_readBack (start : UInt64) {r : Record}
    (hfits : r.mode.carriesData = true → r.mode.isCutDown = false → r.fits = true) :
    r.ReadsAs start (r.readBack start) := by
  refine ⟨rfl, rfl, ?_, ?_⟩
  · obtain ⟨pc, mode, data⟩ := r
    cases mode
    case constPool | veneerPool | debugBreakSlotAtCall => exact toInt64_toInt32_eq_iff
    case codeTargetWithId | position | statementPosition | deoptReason | comment =>
      exact iff_of_true rfl (hfits rfl rfl)
    -- no data is read, which is right for a record that has none
    all_goals exact eq_comm.trans beq_iff_eq.symm
  · intro hcut
    obtain ⟨pc, mode, data⟩ := r
    cases mode <;> first | rfl | cases hcut

/-- **Data is read as it was written exactly if it fits**, for every record that is not replaced by
a position behind it. A list is encoded only if all data fits that is looked at, so only sizes of
pools and counts of arguments are ever read as other numbers than were written. -/
theorem encode_payloads {records : List Record} {stream : ByteArray} (start : UInt64)
    (h : encode records = .ok stream)
    (hstart : ∀ r ∈ records.getLast?, start.toNat + r.pc.toNat < 2 ^ 64) :
    (∀ r ∈ records, r.mode.carriesData = true → r.fits = true ∨ r.mode.isCutDown = true) ∧
      ∃ found, walkStream stream start .all none = ⟨found.toArray, none⟩ ∧
        List.Forall₂ (Record.ReadsAs start) (kept (records.map .write)) found := by
  have hfits : ∀ r ∈ records, r.mode.carriesData = true → r.mode.isCutDown = false →
      r.fits = true := fun r hr => fits_of_encode h hr
  constructor
  · intro r hr hcarries
    cases hcut : r.mode.isCutDown with
    | true => exact Or.inr rfl
    | false => exact Or.inl (hfits r hr hcarries hcut)
  · obtain ⟨bytes, e', hrun, hstream⟩ := encode_eq_ok.1 h
    rw [← written_map_write records] at hstart
    refine ⟨_, walkStream_of_bytes hrun hstart hstream, ?_⟩
    rw [List.forall₂_map_right_iff, List.forall₂_same]
    intro r hr
    have hwritten := mem_of_mem_kept hr
    rw [written_map_write] at hwritten
    exact r.readsAs_readBack start (hfits r hwritten)

/-- The widest reason, the widest comment and a position that replaces another one keep their data.
The size of a pool that has more than 32 bits is written all the same. -/
theorem encode_payloads_veneerPool :
    encode [⟨7, .position, 3⟩, ⟨7, .position, -2147483648⟩, ⟨9, .deoptReason, 63⟩,
        ⟨9, .veneerPool, 4294967301⟩, ⟨70000, .comment, -9223372036854775808⟩] =
        .ok ⟨#[128, 0, 0, 0, 0, 0, 0, 0, 39, 31, 17, 138, 87, 0, 0, 0, 5, 0, 79, 255, 10, 128, 0, 0, 0,
          7, 35]⟩ ∧
      ∃ found,
        walkStream ⟨#[128, 0, 0, 0, 0, 0, 0, 0, 39, 31, 17, 138, 87, 0, 0, 0, 5, 0, 79, 255, 10, 128, 0,
            0, 0, 7, 35]⟩ 16 .all none = ⟨found.toArray, none⟩ ∧
        List.Forall₂ (Record.ReadsAs 16)
          [⟨7, .position, -2147483648⟩, ⟨9, .deoptReason, 63⟩, ⟨9, .veneerPool, 4294967301⟩,
            ⟨70000, .comment, -9223372036854775808⟩] found := by
  have hencode : encode [⟨7, .position, 3⟩, ⟨7, .position, -2147483648⟩, ⟨9, .deoptReason, 63⟩,
      ⟨9, .veneerPool, 4294967301⟩, ⟨70000, .comment, -9223372036854775808⟩] =
      .ok ⟨#[128, 0, 0, 0, 0, 0, 0, 0, 39, 31, 17, 138, 87, 0, 0, 0, 5, 0, 79, 255, 10, 128, 0, 0, 0,
        7, 35]⟩ := by
    decide +kernel
  exact ⟨hencode, (encode_payloads 16 hencode (by decide)).2⟩

/-- The size of a pool is not refused for being too long: it is read as another number. -/
theorem encode_constPool_cut :
    encode [⟨0, .constPool, 4294967295⟩] = .ok ⟨#[255, 255, 255, 255, 0, 75]⟩ ∧
      walkStream ⟨#[255, 255, 255, 255, 0, 75]⟩ 0 .all none = ⟨#[⟨0, .constPool, -1⟩], none⟩ := by
  constructor <;> decide +kernel

end CodeReloc
