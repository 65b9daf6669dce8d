import CodeReloc.Fault

set_option autoImplicit false

/-!
# Words as bytes

Words are laid out with the lowest byte first. `leBytes k n` is the `k` lowest bytes of `n`, and
`readBytes k` takes such a word off the front of a list of bytes, which is a fault when the list is
too short. `skipBytes` passes over bytes under the same condition without looking at them.

Main statement: `readBytes_leBytes`, so a word that was laid out reads back.
-/

namespace CodeReloc

/-- The `k` lowest bytes of a number, lowest first. -/
def leBytes : Nat → Nat → List UInt8
  | 0, _ => []
  | k + 1, n => UInt8.ofNat n :: leBytes k (n / 256)

/-- Takes a word of `k` bytes off the front of a list. -/
def readBytes : Nat → List UInt8 → Except Fault (Nat × List UInt8)
  | 0, rest => .ok (0, rest)
  | _ + 1, [] => .error .breach
  | k + 1, b :: rest =>
    match readBytes k rest with
    | .ok (n, rest) => .ok (b.toNat + 256 * n, rest)
    | .error fault => .error fault

/-- Passes over `k` bytes. -/
def skipBytes : Nat → List UInt8 → Except Fault (List UInt8)
  | 0, rest => .ok rest
  | _ + 1, [] => .error .breach
  | k + 1, _ :: rest => skipBytes k rest

@[simp] theorem length_leBytes (k n : Nat) : (leBytes k n).length = k := by
  induction k generalizing n <;> simp [leBytes, *]

theorem readBytes_leBytes (k n : Nat) (rest : List UInt8) :
    readBytes k (leBytes k n ++ rest) = .ok (n % 1 <<< (8 * k), rest) := by
  induction k generalizing n with
  | zero => simp [leBytes, readBytes, Nat.mod_one]
  | succ k ih =>
    have hbound : 1 <<< (8 * (k + 1)) = 256 * 1 <<< (8 * k) := by
      rw [Nat.mul_succ, Nat.shiftLeft_add, Nat.shiftLeft_eq _ 8, Nat.mul_comm]
    simp only [leBytes, List.cons_append, readBytes, ih]
    rw [hbound, Nat.mod_mul]
    simp

/-- Reading a word uses up exactly its bytes. -/
theorem length_of_readBytes {k n : Nat} {bytes rest : List UInt8}
    (h : readBytes k bytes = .ok (n, rest)) : bytes.length = k + rest.length := by
  induction k generalizing n bytes with
  | zero =>
    cases h
    simp
  | succ k ih =>
    cases bytes with
    | nil => simp [readBytes] at h
    | cons b bytes =>
      unfold readBytes at h
      split at h
      · rename_i e
        cases h
        have := ih e
        simp only [List.length_cons]
        omega
      · cases h

/-- Passing over a word uses up exactly its bytes. -/
theorem length_of_skipBytes {k : Nat} {bytes rest : List UInt8}
    (h : skipBytes k bytes = .ok rest) : bytes.length = k + rest.length := by
  induction k generalizing bytes with
  | zero =>
    cases h
    simp
  | succ k ih =>
    cases bytes with
    | nil => cases h
    | cons b bytes =>
      have := ih h
      simp only [List.length_cons]
      omega

end CodeReloc
