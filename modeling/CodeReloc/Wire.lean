import CodeReloc.Bytes

set_option autoImplicit false

/-!
# The bytes of a stream

A byte of a stream has two parts. In the first byte of a record the low two bits are a tag, and the
high six bits are either a short distance in the code or the code of a mode. In the data byte of a
short record the low two bits say what the record is and the high six bits are its data, signed or
unsigned. In a chunk of a pc jump the low bit marks the last chunk and the high seven bits are
digits of the jump.

Main statements: `high_pack`, `low_pack` and `signedHigh_packSigned`, so that both parts of a
packed byte come back, and `inSigned_iff` and `inUnsigned_iff`, the ranges as numbers.
-/

namespace CodeReloc.Wire

/-! ## Widths -/

def tagBits : Nat := 2
def tagMask : Nat := 1 <<< tagBits - 1
def longTagBits : Nat := 6
def shortKindBits : Nat := 2
def shortDataBits : Nat := 8 - shortKindBits
def smallPcBits : Nat := 8 - tagBits
def smallPcMask : Nat := 1 <<< smallPcBits - 1
def maxSmallPc : Nat := smallPcMask
def chunkBits : Nat := 7
def chunkMask : Nat := 1 <<< chunkBits - 1
def lastChunkBits : Nat := 1
def lastChunkMark : Nat := 1
def intSize : Nat := 4
def pointerSize : Nat := 8

/-! ## Parts of a byte -/

/-- What the first byte of a record begins. -/
inductive Tag where
  | embeddedObject
  | codeTarget
  | locatable
  | long
  deriving DecidableEq, Repr

/-- What a short record with a data byte is. -/
inductive ShortKind where
  | codeWithId
  | position
  | statementPosition
  | deoptReason
  deriving DecidableEq, Repr

def Tag.code : Tag → Nat
  | embeddedObject => 0
  | codeTarget => 1
  | locatable => 2
  | long => 3

def ShortKind.code : ShortKind → Nat
  | codeWithId => 0
  | position => 1
  | statementPosition => 2
  | deoptReason => 3

/-- A byte from its high six bits and its low two bits; what does not fit is dropped. -/
def pack (high low : Nat) : UInt8 := UInt8.ofNat (4 * high + low)

/-- A byte whose high six bits are the low six bits of a signed number. -/
def packSigned (high : Int) (low : Nat) : UInt8 := pack (high % 64).toNat low

/-- The high six bits, unsigned. -/
def high (b : UInt8) : Nat := b.toNat / 4

/-- The high six bits, with the highest as the sign. -/
def signedHigh (b : UInt8) : Int := (high b : Int).bmod 64

/-- The low two bits. -/
def low (b : UInt8) : Nat := b.toNat % 4

/-- The tag of the first byte of a record. -/
def tagOf (b : UInt8) : Tag :=
  match low b with
  | 0 => .embeddedObject
  | 1 => .codeTarget
  | 2 => .locatable
  | _ => .long

/-- The kind in a data byte. -/
def shortKindOf (b : UInt8) : ShortKind :=
  match low b with
  | 0 => .codeWithId
  | 1 => .position
  | 2 => .statementPosition
  | _ => .deoptReason

/-- A chunk of a pc jump: seven digits, without the mark of the last chunk. -/
def chunk (digits : Nat) : UInt8 := UInt8.ofNat (2 * (digits % 128))

/-- The last chunk of a pc jump. -/
def lastChunk (digits : Nat) : UInt8 := UInt8.ofNat (2 * (digits % 128) + lastChunkMark)

/-- The digits of a chunk. -/
def chunkDigits (b : UInt8) : Nat := b.toNat / 2

/-- Whether a chunk is marked as the last one. -/
def isLastChunk (b : UInt8) : Bool := b.toNat % 2 == lastChunkMark

@[simp] theorem high_lt (b : UInt8) : high b < 64 := by
  have := b.toNat_lt
  unfold high
  omega

theorem high_pack {h l : Nat} (hh : h < 64) (hl : l < 4) : high (pack h l) = h := by
  simp only [high, pack, UInt8.toNat_ofNat']
  omega

theorem low_pack {h l : Nat} (hl : l < 4) : low (pack h l) = l := by
  simp only [low, pack, UInt8.toNat_ofNat']
  omega

theorem tagOf_pack (h : Nat) (t : Tag) : tagOf (pack h t.code) = t := by
  cases t <;> simp [tagOf, Tag.code, low_pack]

theorem shortKindOf_pack (h : Nat) (k : ShortKind) : shortKindOf (pack h k.code) = k := by
  cases k <;> simp [shortKindOf, ShortKind.code, low_pack]

theorem signedHigh_packSigned {d : Int} {l : Nat} (h₁ : -32 ≤ d) (h₂ : d < 32) (hl : l < 4) :
    signedHigh (packSigned d l) = d := by
  unfold signedHigh packSigned
  rw [high_pack (by omega) hl, Int.bmod_def]
  split <;> omega

theorem chunkDigits_chunk (n : Nat) : chunkDigits (chunk n) = n % 128 := by
  simp only [chunkDigits, chunk, UInt8.toNat_ofNat']
  omega

theorem chunkDigits_lastChunk (n : Nat) : chunkDigits (lastChunk n) = n % 128 := by
  simp only [chunkDigits, lastChunk, lastChunkMark, UInt8.toNat_ofNat']
  omega

theorem isLastChunk_chunk (n : Nat) : isLastChunk (chunk n) = false := by
  simp only [isLastChunk, chunk, lastChunkMark, UInt8.toNat_ofNat', beq_eq_false_iff_ne]
  omega

theorem isLastChunk_lastChunk (n : Nat) : isLastChunk (lastChunk n) = true := by
  simp only [isLastChunk, lastChunk, lastChunkMark, UInt8.toNat_ofNat', beq_iff_eq]
  omega

/-! ## Range tests -/

/-- A number that is not negative and below `2 ^ bits`. The bound is itself a 64-bit word, so that
at 63 bits it is the least integer and no number passes. -/
def inUnsigned (value : Int64) (bits : Nat) : Bool :=
  0 ≤ value && value < Int64.ofNat (1 <<< bits)

/-- A number that has a two's complement form of the given width. -/
def inSigned (value : Int64) (bits : Nat) : Bool :=
  -Int64.ofNat (1 <<< (bits - 1)) ≤ value && value < Int64.ofNat (1 <<< (bits - 1))

/-- The unsigned range test, for widths of 1 to 63 bits. -/
def testUnsigned (value : Int64) (bits : Nat) : Except Fault Bool :=
  if 0 < bits ∧ bits < 64 then .ok (inUnsigned value bits) else .error .breach

/-- The signed range test, for widths of 1 to 63 bits. -/
def testSigned (value : Int64) (bits : Nat) : Except Fault Bool :=
  if 0 < bits ∧ bits < 64 then .ok (inSigned value bits) else .error .breach

theorem inSigned_iff {value : Int64} {bits : Nat} (hbits : bits < 64) :
    inSigned value bits = true ↔
      -((1 <<< (bits - 1) : Nat) : Int) ≤ value.toInt ∧
        value.toInt < ((1 <<< (bits - 1) : Nat) : Int) := by
  have hbound : 1 <<< (bits - 1) < 2 ^ 63 := by
    rw [Nat.one_shiftLeft]
    exact Nat.pow_lt_pow_right (by decide) (by omega)
  have hlow := Int64.toInt_neg_ofNat_of_le (Nat.le_of_lt hbound)
  have hhigh := Int64.toInt_ofNat_of_lt hbound
  rw [inSigned, Bool.and_eq_true, decide_eq_true_eq, decide_eq_true_eq, Int64.le_iff_toInt_le,
    Int64.lt_iff_toInt_lt, hlow, hhigh]

/-- A number of at most 32 bits keeps its value as a 32-bit number. -/
theorem toInt64_toInt32_of_inSigned {value : Int64} (h : inSigned value 32 = true) :
    value.toInt32.toInt64 = value := by
  rw [inSigned_iff (by decide)] at h
  obtain ⟨hlow, hhigh⟩ := h
  apply Int64.toInt_inj.1
  rw [Int32.toInt_toInt64, Int64.toInt_toInt32, Int.bmod_def]
  split <;> omega

theorem inUnsigned_iff {value : Int64} {bits : Nat} (hbits : bits < 63) :
    inUnsigned value bits = true ↔
      0 ≤ value.toInt ∧ value.toInt < ((1 <<< bits : Nat) : Int) := by
  have hbound : 1 <<< bits < 2 ^ 63 := by
    rw [Nat.one_shiftLeft]
    exact Nat.pow_lt_pow_right (by decide) hbits
  have hhigh := Int64.toInt_ofNat_of_lt hbound
  rw [inUnsigned, Bool.and_eq_true, decide_eq_true_eq, decide_eq_true_eq, Int64.le_iff_toInt_le,
    Int64.lt_iff_toInt_lt, hhigh, Int64.toInt_zero]

/-! ## Checked packing -/

/-- The first byte of a short record, for a distance that fits. -/
def shortPcByte (distance : Nat) (tag : Tag) : Except Fault UInt8 :=
  if distance ≤ maxSmallPc then .ok (pack distance tag.code) else .error .breach

/-- The data byte of a short record: the low six bits of the data and the kind. -/
def shortDataByte (data : Int32) (kind : ShortKind) : UInt8 := packSigned data.toInt kind.code

/-- The first byte of a long record, for a mode code of at most six bits. -/
def longModeByte (code : Nat) : Except Fault UInt8 :=
  if code < 1 <<< longTagBits then .ok (pack code Tag.long.code) else .error .breach

/-- The low six bits of a number that fits them, as a data byte. -/
theorem signedHigh_shortDataByte {data : Int32} (kind : ShortKind)
    (h : inSigned data.toInt64 shortDataBits = true) :
    signedHigh (shortDataByte data kind) = data.toInt := by
  rw [inSigned_iff (by decide), Int32.toInt_toInt64] at h
  have hkind : kind.code < 4 := by cases kind <;> decide
  exact signedHigh_packSigned h.1 h.2 hkind

theorem high_shortDataByte {data : Int64} (kind : ShortKind)
    (h : inUnsigned data shortDataBits = true) :
    Int64.ofNat (high (shortDataByte data.toInt32 kind)) = data := by
  rw [inUnsigned_iff (by decide)] at h
  obtain ⟨h₁, h₂⟩ := h
  have hkind : kind.code < 4 := by cases kind <;> decide
  have h₃ : data.toInt < 64 := h₂
  have hsame : data.toInt32.toInt = data.toInt := by
    rw [Int64.toInt_toInt32, Int.bmod_eq_of_le] <;> omega
  rw [shortDataByte, packSigned, hsame, high_pack (by omega) hkind]
  apply Int64.toInt_inj.1
  rw [Int64.toInt_ofNat_of_lt (by omega)]
  omega

end CodeReloc.Wire
