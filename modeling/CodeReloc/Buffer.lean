import CodeReloc.Instances

set_option autoImplicit false

/-!
# Byte buffers

Buffers are seen as lists of bytes through `bytesOf`. Two operations are all that this library needs
beside those on every byte array: `copies`, a run of equal bytes, and `overlay`, which lays one
buffer over a part of another.

Main statements: `bytesOf_copies` and `bytesOf_overlay`, which say what the two do to the list.
-/

namespace CodeReloc

/-- The bytes of a buffer. -/
def bytesOf (b : ByteArray) : List UInt8 := b.data.toList

@[simp] theorem length_bytesOf (b : ByteArray) : (bytesOf b).length = b.size := by
  simp [bytesOf]

@[simp] theorem bytesOf_append (a b : ByteArray) :
    bytesOf (a ++ b) = bytesOf a ++ bytesOf b := by
  simp [bytesOf]

@[simp] theorem bytesOf_toByteArray (l : List UInt8) : bytesOf l.toByteArray = l := by
  simp [bytesOf]

theorem bytesOf_extract (b : ByteArray) (start stop : Nat) :
    bytesOf (b.extract start stop) = ((bytesOf b).take stop).drop start := by
  simp [bytesOf, List.extract_eq_take_drop, List.drop_take]

theorem bytesOf_injective {a b : ByteArray} (h : bytesOf a = bytesOf b) : a = b :=
  ByteArray.ext (Array.toList_inj.1 h)

/-- A run of equal bytes, built by doubling. -/
def copies (n : Nat) (value : UInt8) : ByteArray :=
  if n = 0 then
    ByteArray.empty
  else
    let half := copies (n / 2) value
    if n % 2 = 0 then half ++ half else (half ++ half).push value
termination_by n

theorem bytesOf_copies (n : Nat) (value : UInt8) :
    bytesOf (copies n value) = List.replicate n value := by
  fun_induction copies n value with
  | case1 => rfl
  | case2 n positive half even ih =>
    rw [bytesOf_append, ih, List.replicate_append_replicate]
    congr 1
    omega
  | case3 n positive half odd ih =>
    have pushed : bytesOf ((half ++ half).push value) = bytesOf (half ++ half) ++ [value] := by
      simp [bytesOf]
    rw [pushed, bytesOf_append, ih, List.replicate_append_replicate,
      ← List.replicate_one (a := value), List.replicate_append_replicate]
    congr 1
    omega

@[simp] theorem size_copies (n : Nat) (value : UInt8) : (copies n value).size = n := by
  rw [← length_bytesOf, bytesOf_copies, List.length_replicate]

/-- A buffer with another one laid over it from an index on. -/
def overlay (buffer : ByteArray) (index : Nat) (piece : ByteArray) : ByteArray :=
  piece.copySlice 0 buffer index piece.size

theorem bytesOf_overlay (buffer : ByteArray) (index : Nat) (piece : ByteArray) :
    bytesOf (overlay buffer index piece) =
      (bytesOf buffer).take index ++ bytesOf piece
        ++ (bytesOf buffer).drop (index + piece.size) := by
  have whole : piece.data.toList.take piece.size = piece.data.toList :=
    List.take_of_length_le (Nat.le_refl _)
  have tail : (buffer.data.toList.drop (index + piece.size)).take
      (buffer.data.size - (index + piece.size)) =
        buffer.data.toList.drop (index + piece.size) :=
    List.take_of_length_le (by rw [List.length_drop]; exact Nat.le_refl _)
  have same : min piece.size piece.data.size = piece.size := Nat.min_self _
  simp only [overlay, ByteArray.copySlice_eq_append, bytesOf, ByteArray.toList_data_append,
    ByteArray.data_extract, Array.toList_extract, List.extract_eq_take_drop, Nat.zero_add,
    Nat.sub_zero, List.drop_zero, same, whole, tail]

theorem size_overlay {buffer piece : ByteArray} {index : Nat}
    (h : index + piece.size ≤ buffer.size) : (overlay buffer index piece).size = buffer.size := by
  rw [← length_bytesOf, bytesOf_overlay]
  simp only [List.length_append, List.length_take, List.length_drop, length_bytesOf]
  omega

/-- What lies behind the piece stays. -/
theorem drop_overlay {buffer piece : ByteArray} {index stop : Nat}
    (h : index + piece.size ≤ stop) (hstop : stop ≤ buffer.size) :
    (bytesOf (overlay buffer index piece)).drop stop = (bytesOf buffer).drop stop := by
  have hfront : ((bytesOf buffer).take index ++ bytesOf piece).length = index + piece.size := by
    rw [List.length_append, List.length_take, length_bytesOf, length_bytesOf]
    omega
  rw [bytesOf_overlay, List.drop_append, List.drop_eq_nil_of_le (by rw [hfront]; exact h), hfront,
    List.nil_append, List.drop_drop, Nat.add_sub_cancel' h]

/-- An empty piece changes nothing. -/
theorem overlay_empty (buffer : ByteArray) (index : Nat) {piece : ByteArray}
    (h : bytesOf piece = []) : overlay buffer index piece = buffer := by
  have hsize : piece.size = 0 := by
    rw [← length_bytesOf, h, List.length_nil]
  apply bytesOf_injective
  rw [bytesOf_overlay, h, hsize, Nat.add_zero, List.append_nil, List.take_append_drop]

end CodeReloc
