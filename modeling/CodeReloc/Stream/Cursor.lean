import CodeReloc.Mask
import CodeReloc.Record
import CodeReloc.Wire

set_option autoImplicit false

/-!
# From bytes to records

A stream is read from its highest index down. `Cursor` is what a reading has reached: the bytes
still to come, in reading order, and the running place, id and position that the differences in the
stream are added to. `Cursor.item` reads what begins with one byte, and `Cursor.seek` goes on to
the next record of a wanted mode.

A record that is not wanted is passed over. Of its numbers only those are followed that a wanted
record needs: an id is added up only if ids are wanted, a position only if positions of either kind
are.

Main statement: `length_of_item`, so that every step uses up bytes and `seek` ends.
-/

namespace CodeReloc

open Wire

/-- How far a reading has come. -/
structure Cursor where
  /-- The bytes still to come, in reading order. -/
  rest : List UInt8
  pc : UInt64
  lastId : Int32
  lastPosition : Int32
  deriving DecidableEq, Repr

/-- The digits of a jump of at most `k` chunks. Reading stops after a chunk marked as the last. -/
def readJump : Nat → List UInt8 → Except Fault (Nat × List UInt8)
  | 0, rest => .ok (0, rest)
  | _ + 1, [] => .error .breach
  | k + 1, b :: rest =>
    if isLastChunk b then
      .ok (chunkDigits b, rest)
    else
      match readJump k rest with
      | .ok (n, rest) => .ok (chunkDigits b + 128 * n, rest)
      | .error fault => .error fault

/-- Takes one byte off the front. -/
def readByte : List UInt8 → Except Fault (UInt8 × List UInt8)
  | [] => .error .breach
  | b :: rest => .ok (b, rest)

/-- Takes a four-byte number off the front. -/
def readInt (bytes : List UInt8) : Except Fault (Int32 × List UInt8) := do
  let (n, rest) ← readBytes intSize bytes
  return ((UInt32.ofNat n).toInt32, rest)

/-- Takes an eight-byte number off the front. -/
def readPointer (bytes : List UInt8) : Except Fault (Int64 × List UInt8) := do
  let (n, rest) ← readBytes pointerSize bytes
  return ((UInt64.ofNat n).toInt64, rest)

namespace Cursor

/-- The record of a given mode at the running place, if that mode is wanted. -/
def yield (c : Cursor) (mask : Mask) (mode : Mode) (data : Int64) : Option Record :=
  if mask.contains mode then some ⟨c.pc, mode, data⟩ else none

/-- What the data byte of a short record stands for. -/
def locatable (mask : Mask) (c : Cursor) (b : UInt8) : Option Record × Cursor :=
  match shortKindOf b with
  | .codeWithId =>
    if mask.contains .codeTargetWithId then
      let id := c.lastId + Int32.ofInt (signedHigh b)
      (some ⟨c.pc, .codeTargetWithId, id.toInt64⟩, { c with lastId := id })
    else
      (none, c)
  | .deoptReason => (c.yield mask .deoptReason (Int64.ofNat (high b)), c)
  | .position => track .position
  | .statementPosition => track .statementPosition
where
  /-- Both kinds of position are differences from the same last position. -/
  track (mode : Mode) : Option Record × Cursor :=
    if mask.intersects .positions then
      let position := c.lastPosition + Int32.ofInt (signedHigh b)
      (c.yield mask mode position.toInt64, { c with lastPosition := position })
    else
      (none, c)

/-- What follows the pc byte of a long record. -/
def payload (mask : Mask) (c : Cursor) (mode : Mode) : Except Fault (Option Record × Cursor) :=
  match mode with
  | .codeTargetWithId =>
    if mask.contains mode then do
      let (delta, rest) ← readInt c.rest
      let id := c.lastId + delta
      return (some ⟨c.pc, mode, id.toInt64⟩, { c with rest := rest, lastId := id })
    else
      skip intSize
  | .position => track
  | .statementPosition => track
  | _ =>
    match mode.payload with
    | .pointer =>
      if mask.contains mode then do
        let (data, rest) ← readPointer c.rest
        return (some ⟨c.pc, mode, data⟩, { c with rest := rest })
      else
        skip pointerSize
    | .int =>
      if mask.contains mode then do
        let (data, rest) ← readInt c.rest
        return (some ⟨c.pc, mode, data.toInt64⟩, { c with rest := rest })
      else
        skip intSize
    | .none => return (c.yield mask mode 0, c)
where
  /-- Passes over the payload of a record that is not wanted. -/
  skip (k : Nat) : Except Fault (Option Record × Cursor) := do
    let rest ← skipBytes k c.rest
    return (none, { c with rest := rest })
  /-- Both kinds of position are differences from the same last position. -/
  track : Except Fault (Option Record × Cursor) :=
    if mask.intersects .positions then do
      let (delta, rest) ← readInt c.rest
      let position := c.lastPosition + delta
      return (c.yield mask mode position.toInt64,
        { c with rest := rest, lastPosition := position })
    else
      skip intSize

/-- Reads what begins with the byte `first`: a record, which is returned if it is wanted, or a jump
of the running place. -/
def item (mask : Mask) (c : Cursor) (first : UInt8) : Except Fault (Option Record × Cursor) :=
  match tagOf first with
  | .embeddedObject => do
    let pc ← pcAfter c.pc (high first)
    let c := { c with pc := pc }
    return (c.yield mask .embeddedObject 0, c)
  | .codeTarget => do
    let pc ← pcAfter c.pc (high first)
    let c := { c with pc := pc }
    return (c.yield mask .codeTarget 0, c)
  | .locatable => do
    let pc ← pcAfter c.pc (high first)
    let (data, rest) ← readByte c.rest
    return locatable mask { c with rest := rest, pc := pc } data
  | .long =>
    match Mode.ofCode? (high first) with
    | none => .error (.invalidMode (high first))
    | some .pcJump => do
      let (jump, rest) ← readJump 4 c.rest
      let pc ← pcAfter c.pc (64 * jump)
      return (none, { c with rest := rest, pc := pc })
    | some mode => do
      let (distance, rest) ← readByte c.rest
      let pc ← pcAfter c.pc distance.toNat
      payload mask { c with rest := rest, pc := pc } mode

/-! ## Equations -/

theorem yield_all (c : Cursor) (mode : Mode) (data : Int64) :
    c.yield .all mode data = some ⟨c.pc, mode, data⟩ :=
  if_pos (Mask.contains_all mode)

/-- The payload of a mode that is read without regard to what was read before. -/
theorem payload_of_untracked {mode : Mode} (hid : mode ≠ .codeTargetWithId)
    (hpos : mode.isPosition = false) (mask : Mask) (c : Cursor) :
    payload mask c mode =
      match mode.payload with
      | .pointer =>
        if mask.contains mode then
          readPointer c.rest >>= fun answer =>
            .ok (some ⟨c.pc, mode, answer.1⟩, { c with rest := answer.2 })
        else
          payload.skip c Wire.pointerSize
      | .int =>
        if mask.contains mode then
          readInt c.rest >>= fun answer =>
            .ok (some ⟨c.pc, mode, answer.1.toInt64⟩, { c with rest := answer.2 })
        else
          payload.skip c Wire.intSize
      | .none => .ok (c.yield mask mode 0, c) := by
  cases mode <;> first | rfl | contradiction

/-! ## Reading uses up bytes -/

end Cursor

theorem length_of_readByte {b : UInt8} {bytes rest : List UInt8}
    (h : readByte bytes = .ok (b, rest)) : rest.length ≤ bytes.length := by
  cases bytes with
  | nil => cases h
  | cons _ _ =>
    cases h
    simp

theorem length_of_readJump {k n : Nat} {bytes rest : List UInt8}
    (h : readJump k bytes = .ok (n, rest)) : rest.length ≤ bytes.length := by
  induction k generalizing n bytes with
  | zero =>
    cases h
    exact Nat.le_refl _
  | succ k ih =>
    cases bytes with
    | nil => cases h
    | cons b bytes =>
      unfold readJump at h
      split at h
      · cases h
        simp
      · split at h
        · rename_i e
          cases h
          have := ih e
          simp only [List.length_cons]
          omega
        · cases h

theorem length_of_readInt {v : Int32} {bytes rest : List UInt8}
    (h : readInt bytes = .ok (v, rest)) : rest.length ≤ bytes.length := by
  obtain ⟨⟨n, tail⟩, e, h⟩ := bind_eq_ok.1 h
  have := length_of_readBytes e
  cases h
  omega

theorem length_of_readPointer {v : Int64} {bytes rest : List UInt8}
    (h : readPointer bytes = .ok (v, rest)) : rest.length ≤ bytes.length := by
  obtain ⟨⟨n, tail⟩, e, h⟩ := bind_eq_ok.1 h
  have := length_of_readBytes e
  cases h
  omega

namespace Cursor

@[simp] theorem rest_locatable (mask : Mask) (c : Cursor) (b : UInt8) :
    (locatable mask c b).2.rest = c.rest := by
  unfold locatable locatable.track
  repeat' split
  all_goals rfl

theorem length_of_skip {c c' : Cursor} {k : Nat} {r : Option Record}
    (h : payload.skip c k = .ok (r, c')) : c'.rest.length ≤ c.rest.length := by
  obtain ⟨rest, e, h⟩ := bind_eq_ok.1 h
  have := length_of_skipBytes e
  cases h
  simp only
  omega

theorem length_of_track {mask : Mask} {c c' : Cursor} {mode : Mode} {r : Option Record}
    (h : payload.track mask c mode = .ok (r, c')) : c'.rest.length ≤ c.rest.length := by
  unfold payload.track at h
  split at h
  · obtain ⟨⟨delta, rest⟩, e, h⟩ := bind_eq_ok.1 h
    cases h
    exact length_of_readInt e
  · exact length_of_skip h

theorem length_of_payload {mask : Mask} {c c' : Cursor} {mode : Mode} {r : Option Record}
    (h : payload mask c mode = .ok (r, c')) : c'.rest.length ≤ c.rest.length := by
  unfold payload at h
  split at h
  · split at h
    · obtain ⟨⟨delta, rest⟩, e, h⟩ := bind_eq_ok.1 h
      cases h
      exact length_of_readInt e
    · exact length_of_skip h
  · exact length_of_track h
  · exact length_of_track h
  · split at h
    · split at h
      · obtain ⟨⟨data, rest⟩, e, h⟩ := bind_eq_ok.1 h
        cases h
        exact length_of_readPointer e
      · exact length_of_skip h
    · split at h
      · obtain ⟨⟨data, rest⟩, e, h⟩ := bind_eq_ok.1 h
        cases h
        exact length_of_readInt e
      · exact length_of_skip h
    · cases h
      exact Nat.le_refl _

/-- Reading what begins with a byte never puts bytes back. -/
theorem length_of_item {mask : Mask} {c c' : Cursor} {first : UInt8} {r : Option Record}
    (h : item mask c first = .ok (r, c')) : c'.rest.length ≤ c.rest.length := by
  unfold item at h
  split at h
  · obtain ⟨pc, -, h⟩ := bind_eq_ok.1 h
    cases h
    exact Nat.le_refl _
  · obtain ⟨pc, -, h⟩ := bind_eq_ok.1 h
    cases h
    exact Nat.le_refl _
  · obtain ⟨pc, -, h⟩ := bind_eq_ok.1 h
    obtain ⟨⟨data, rest⟩, e, h⟩ := bind_eq_ok.1 h
    have same := congrArg (fun answer => answer.2.rest) (Except.ok.inj h)
    simp only [rest_locatable] at same
    rw [← same]
    exact length_of_readByte e
  · split at h
    · cases h
    · obtain ⟨⟨jump, rest⟩, e, h⟩ := bind_eq_ok.1 h
      obtain ⟨pc, -, h⟩ := bind_eq_ok.1 h
      cases h
      exact length_of_readJump e
    · obtain ⟨⟨distance, rest⟩, e, h⟩ := bind_eq_ok.1 h
      obtain ⟨pc, -, h⟩ := bind_eq_ok.1 h
      exact Nat.le_trans (length_of_payload h) (length_of_readByte e)

/-- Goes on to the next record of a wanted mode, or to the end of the bytes. -/
def seek (mask : Mask) (c : Cursor) : Except Fault (Option Record × Cursor) :=
  match hc : c.rest with
  | [] => .ok (none, c)
  | first :: rest =>
    match h : item mask { c with rest := rest } first with
    | .error fault => .error fault
    | .ok (some r, c') => .ok (some r, c')
    | .ok (none, c') =>
      have : c'.rest.length < c.rest.length := hc ▸ Nat.lt_succ_of_le (length_of_item h)
      seek mask c'
termination_by c.rest.length

/-- What `seek` has used up. -/
theorem length_of_seek {mask : Mask} {c c' : Cursor} {r : Option Record}
    (h : seek mask c = .ok (r, c')) :
    c'.rest.length < c.rest.length ∨ (c' = c ∧ c.rest = [] ∧ r = none) := by
  fun_induction seek mask c with
  | case1 c hc =>
    cases h
    exact .inr ⟨rfl, hc, rfl⟩
  | case2 c first rest hc fault e => cases h
  | case3 c first rest hc r c'' e =>
    cases h
    have := length_of_item e
    refine .inl ?_
    rw [hc]
    exact Nat.lt_succ_of_le this
  | case4 c first rest hc c'' e bound ih =>
    obtain less | ⟨same, -⟩ := ih h
    · exact .inl (Nat.lt_trans less bound)
    · exact .inl (same ▸ bound)

end Cursor

end CodeReloc
