import CodeReloc.Proofs.Stream.Checks
import CodeReloc.Proofs.Stream.Grammar

set_option autoImplicit false

/-!
# Jumps

A distance of more than six bits is brought down to six by a jump in front of the record. It is laid
down in as many rounds as it has digits (`layJump`) and read in at most four, where a mark on the
last chunk is what ends them. The two loops agree on every distance of 32 bits: what is laid down
are the bytes that an encoder puts in front of its records (`layJump_eq`), and wherever a reader
stands, a record with a distance in front is the record without one at a place that much further on
(`seek_form`).

Main statement: `seek_layJump`.
-/

namespace CodeReloc

open Wire

/-! ## Bytes laid down one after the other -/

/-- Computations that answer alike are equal, if a breach is all that they can end in besides. -/
theorem OnlyBreach.eq_of_answers {α : Type} {x y : Except Fault α} (hx : OnlyBreach x)
    (hy : OnlyBreach y) (h : ∀ a, x = .ok a ↔ y = .ok a) : x = y := by
  cases x with
  | ok a => exact ((h a).1 rfl).symm
  | error fault =>
    cases y with
    | ok a => exact (h a).2 rfl
    | error other => rw [hx fault rfl, hy other rfl]

theorem OnlyBreach.place (bytes : List UInt8) (pos : Nat) (buffer : ByteArray) :
    OnlyBreach (place bytes pos buffer) := by
  unfold CodeReloc.place
  split
  · exact .ok _
  · split
    · exact .ok _
    · exact .breach

namespace Placed

variable {bytes xs ys : List UInt8} {pos low : Nat} {buffer buffer' : ByteArray}

/-- What is in place has been laid there. -/
theorem place_eq (h : Placed bytes pos buffer low buffer') :
    place bytes pos buffer = .ok (low, buffer') := by
  have hlow := h.low_add
  have hanswers : ∃ low buffer', place bytes pos buffer = .ok (low, buffer') := by
    rcases h.inside with rfl | hpos
    · exact ⟨pos, buffer, rfl⟩
    · exact place_of_room (by omega) hpos
  obtain ⟨low', buffer'', hplace⟩ := hanswers
  obtain ⟨rfl, rfl⟩ := h.unique (placed_of_place hplace)
  exact hplace

/-- Bytes in place are their parts in place, one below the other. -/
theorem split (h : Placed (xs ++ ys) pos buffer low buffer') :
    ∃ mid between, Placed xs pos buffer mid between ∧ Placed ys mid between low buffer' := by
  have hlow := h.low_add
  rw [List.length_append] at hlow
  rcases h.inside with hempty | hpos
  · obtain ⟨rfl, rfl⟩ := List.append_eq_nil_iff.1 hempty
    exact ⟨pos, buffer, .nil pos buffer, h⟩
  · have hroom : xs.length ≤ pos := by omega
    obtain ⟨mid, between, hxs⟩ := place_of_room hroom hpos
    have hfirst := placed_of_place hxs
    have hmid := hfirst.low_add
    have hbetween : mid ≤ between.size := by
      rw [hfirst.size_eq]
      omega
    have hrest : ys.length ≤ mid := by omega
    obtain ⟨low', buffer'', hys⟩ := place_of_room hrest hbetween
    have hsecond := placed_of_place hys
    obtain ⟨rfl, rfl⟩ := h.unique (hfirst.trans hsecond)
    exact ⟨mid, between, hfirst, hsecond⟩

end Placed

/-- **Bytes can be laid down in parts.** Where there is no room for all of them, there is none for
one of the parts. -/
theorem place_append (xs ys : List UInt8) (pos : Nat) (buffer : ByteArray) :
    place (xs ++ ys) pos buffer =
      place xs pos buffer >>= fun (pos, buffer) => place ys pos buffer := by
  refine OnlyBreach.eq_of_answers (.place _ _ _) (.bind (.place _ _ _) fun _ => .place _ _ _) ?_
  rintro ⟨low, buffer'⟩
  constructor
  · intro h
    obtain ⟨mid, between, hxs, hys⟩ := (placed_of_place h).split
    exact bind_eq_ok.2 ⟨(mid, between), hxs.place_eq, hys.place_eq⟩
  · intro h
    obtain ⟨⟨mid, between⟩, hxs, hys⟩ := bind_eq_ok.1 h
    exact ((placed_of_place hxs).trans (placed_of_place hys)).place_eq

/-! ## Chunks laid down one after the other -/

/-- The chunks of a number as long as none of them is marked. -/
def plainChunks (n : Nat) : List UInt8 :=
  if n = 0 then [] else chunk n :: plainChunks (n / 128)
termination_by n

theorem layChunks_eq (n pos : Nat) (buffer : ByteArray) :
    layChunks n pos buffer = place (plainChunks n) pos buffer := by
  fun_induction layChunks n pos buffer with
  | case1 pos buffer =>
    rw [plainChunks, if_pos rfl]
    rfl
  | case2 n pos buffer hn ih =>
    have hsplit : plainChunks n = [chunk n] ++ plainChunks (n / 128) := by
      rw [plainChunks, if_neg hn, List.singleton_append]
    rw [hsplit, place_append]
    exact bind_congr fun answer => ih answer.1 answer.2

/-- Before its last chunk is marked, a jump differs from itself in that chunk only. -/
theorem exists_last_chunk {n : Nat} (hn : 0 < n) :
    ∃ before digits, plainChunks n = before ++ [chunk digits] ∧
      jumpChunks n = before ++ [lastChunk digits] ∧ ∀ b ∈ before, isLastChunk b = false := by
  -- the induction follows the chunks of the jump, the last of which is still a chunk of its own
  fun_induction jumpChunks n with
  | case1 n hsmall =>
    refine ⟨[], n, ?_, rfl, by simp⟩
    have hdone : n / 128 = 0 := Nat.div_eq_of_lt hsmall
    rw [plainChunks, if_neg (Nat.ne_of_gt hn), hdone, plainChunks, if_pos rfl, List.nil_append]
  | case2 n hlarge ih =>
    have hrest : 0 < n / 128 := by omega
    obtain ⟨before, digits, hplain, hjump, hbefore⟩ := ih hrest
    refine ⟨chunk n :: before, digits, ?_, ?_, ?_⟩
    · rw [plainChunks, if_neg (Nat.ne_of_gt hn), hplain, List.cons_append]
    · rw [hjump, List.cons_append]
    · intro b hb
      rcases List.mem_cons.1 hb with rfl | hb
      · exact isLastChunk_chunk n
      · exact hbefore b hb

theorem chunk_marked (n : Nat) : chunk n ||| UInt8.ofNat lastChunkMark = lastChunk n := by
  have hdigits : ∀ k < 128, UInt8.ofNat (2 * k) ||| 1 = UInt8.ofNat (2 * k + 1) := by decide
  exact hdigits (n % 128) (Nat.mod_lt n (by decide))

/-- A byte that has been laid down can be marked where it stands. -/
theorem Placed.mark {b : UInt8} {pos low : Nat} {buffer buffer' : ByteArray}
    (h : Placed [b] pos buffer low buffer') :
    ∃ marked, markLast low buffer' = .ok marked ∧
      Placed [b ||| UInt8.ofNat lastChunkMark] pos buffer low marked := by
  have hlow : low + 1 = pos := h.low_add
  have hpos : pos ≤ buffer.size := h.inside.resolve_left (List.cons_ne_nil b [])
  have hback : (bytesOf buffer').drop low = b :: (bytesOf buffer).drop pos := h.drop_eq
  have hinside : low < buffer'.size := by
    rw [h.size_eq]
    omega
  have hbyte : buffer'[low] = b := by
    have hfirst : (bytesOf buffer')[low]? = some b := by
      rw [← Nat.add_zero low, ← List.getElem?_drop, hback]
      rfl
    exact Option.some.inj ((List.getElem?_eq_getElem (by simpa using hinside)).symm.trans hfirst)
  have hbehind : (bytesOf buffer').drop (low + 1) = (bytesOf buffer).drop pos := by
    rw [← List.drop_drop, hback]
    rfl
  refine ⟨_, dif_pos hinside, hlow, Or.inr hpos, ?_⟩
  have hsize : [buffer'[low] ||| UInt8.ofNat lastChunkMark].toByteArray.size = 1 := rfl
  rw [bytesOf_overlay, bytesOf_toByteArray, hsize, h.take_eq (Nat.le_refl low), hbehind, hbyte]
  rfl

/-- A byte that is marked once it stands in the buffer might as well have been marked before. -/
theorem place_mark (b : UInt8) (pos : Nat) (buffer : ByteArray) :
    (place [b] pos buffer >>= fun (pos, buffer) =>
      markLast pos buffer >>= fun buffer => .ok (pos, buffer)) =
      place [b ||| UInt8.ofNat lastChunkMark] pos buffer := by
  cases hplace : place [b] pos buffer with
  | ok answer =>
    obtain ⟨marked, hmark, hplaced⟩ := (placed_of_place hplace).mark
    rw [hplaced.place_eq]
    exact bind_eq_ok.2 ⟨answer, rfl, bind_eq_ok.2 ⟨marked, hmark, rfl⟩⟩
  | error fault =>
    -- whether there is room does not depend on the byte
    unfold place at hplace ⊢
    split at hplace
    · cases hplace
    · split at hplace
      · cases hplace
      · rename_i hroom
        cases hplace
        exact (if_neg hroom).symm

/-! ## Whole jumps -/

/-- The chunks of a number, the last one marked once all of them are there. -/
theorem layChunks_marked {n : Nat} (hn : 0 < n) (pos : Nat) (buffer : ByteArray) :
    (layChunks n pos buffer >>= fun (pos, buffer) =>
      markLast pos buffer >>= fun buffer => .ok (pos, buffer)) =
      place (jumpChunks n) pos buffer := by
  obtain ⟨before, digits, hplain, hjump, -⟩ := exists_last_chunk hn
  rw [layChunks_eq, hplain, place_append, bind_assoc, hjump, place_append, ← chunk_marked]
  exact bind_congr fun answer => place_mark (chunk digits) answer.1 answer.2

/-- **What is laid down is the jump of an encoder.** -/
theorem layJump_eq {distance : Nat} (hd : distance < 2 ^ 32) (pos : Nat) (buffer : ByteArray) :
    layJump distance pos buffer =
      place (jumpBytes distance) pos buffer >>= fun (pos, buffer) =>
        .ok (distance % 64, pos, buffer) := by
  rw [layJump, Checked.testUnsigned_ofNat hd, jumpBytes]
  by_cases hsmall : distance < 64
  · rw [if_pos hsmall, Nat.mod_eq_of_lt hsmall, decide_eq_true hsmall]
    rfl
  · have hdigit : 0 < distance / 64 := by omega
    rw [if_neg hsmall, decide_eq_false hsmall, ← List.singleton_append, place_append, bind_assoc,
      Checked.longModeByte_code]
    change (place _ pos buffer >>= _) = _
    refine bind_congr fun answer => ?_
    obtain ⟨pos, buffer⟩ := answer
    change _ = place (jumpChunks (distance / 64)) pos buffer >>= _
    rw [← layChunks_marked hdigit, bind_assoc, require, decide_eq_true hdigit]
    change (layChunks (distance / 64) pos buffer >>= _) = _
    refine bind_congr fun answer => ?_
    rw [bind_assoc]
    rfl

/-- The chunks of a jump of `n`: one to four of them, of which the last one alone is marked, with
the digits of `n`, the lowest first. -/
structure ChunksOf (n : Nat) (chunks : List UInt8) : Prop where
  marked : ∃ before last, chunks = before ++ [last] ∧ before.length ≤ 3 ∧
    (∀ b ∈ before, isLastChunk b = false) ∧ isLastChunk last = true
  digits : jumpDigits chunks = n

theorem jumpDigits_jumpChunks (n : Nat) : jumpDigits (jumpChunks n) = n := by
  fun_induction jumpChunks n with
  | case1 n hsmall =>
    have hdigits := chunkDigits_lastChunk n
    rw [chunkDigits] at hdigits
    rw [jumpDigits, jumpDigits, hdigits]
    omega
  | case2 n hlarge ih =>
    have hdigits := chunkDigits_chunk n
    rw [chunkDigits] at hdigits
    rw [jumpDigits, hdigits, ih]
    omega

theorem chunksOf_jumpChunks {n : Nat} (hn : 0 < n) (h : n < 2 ^ 26) :
    ChunksOf n (jumpChunks n) := by
  refine ⟨?_, jumpDigits_jumpChunks n⟩
  obtain ⟨before, digits, -, hjump, hbefore⟩ := exists_last_chunk hn
  have hlength : (jumpChunks n).length ≤ 4 := length_jumpChunks_le (by omega)
  rw [hjump, List.length_append, List.length_singleton] at hlength
  exact ⟨before, _, hjump, by omega, hbefore, isLastChunk_lastChunk digits⟩

/-! ## Reading past a jump -/

theorem pcAfter_zero (pc : UInt64) : pcAfter pc 0 = .ok pc :=
  pcAfter_eq_ok.2 (Nat.add_zero _).symm

/-- Two distances, one after the other. -/
theorem pcAfter_add (pc : UInt64) (n m : Nat) :
    (pcAfter pc n >>= fun mid => pcAfter mid m) = pcAfter pc (n + m) := by
  refine OnlyBreach.eq_of_answers (.bind (.pcAfter _ _) fun _ => .pcAfter _ _) (.pcAfter _ _) ?_
  intro q
  rw [bind_eq_ok, pcAfter_eq_ok]
  constructor
  · rintro ⟨mid, hmid, hq⟩
    rw [pcAfter_eq_ok] at hmid hq
    omega
  · intro hq
    have hlt := q.toNat_lt
    have hnear : pc.toNat + n < 2 ^ 64 := by omega
    obtain ⟨mid, hmid, hplace⟩ := pcAfter_of_lt hnear
    exact ⟨mid, hmid, pcAfter_eq_ok.2 (by omega)⟩

namespace Cursor

/-- The rest of a search, once its first item has been read. -/
def seekItem (mask : Mask) :
    Except Fault (Option Record × Cursor) → Except Fault (Option Record × Cursor)
  | .error fault => .error fault
  | .ok (some r, c) => .ok (some r, c)
  | .ok (none, c) => seek mask c

theorem seek_cons {mask : Mask} {c : Cursor} {first : UInt8} {rest : List UInt8}
    (h : c.rest = first :: rest) :
    seek mask c = seekItem mask (item mask { c with rest := rest } first) := by
  rw [seek]
  split
  · rename_i hc
    rw [h] at hc
    cases hc
  · rename_i hc
    rw [h] at hc
    cases hc
    split
    all_goals
      rename_i e
      exact (congrArg (seekItem mask) e).symm

theorem seek_cursor_cons (mask : Mask) (s : Running) (first : UInt8) (rest : List UInt8) :
    seek mask (s.cursor (first :: rest)) = seekItem mask (item mask (s.cursor rest) first) :=
  seek_cons rfl

theorem seekItem_bind {α : Type} (mask : Mask) (x : Except Fault α)
    (f : α → Except Fault (Option Record × Cursor)) :
    seekItem mask (x >>= f) = x >>= fun a => seekItem mask (f a) := by
  cases x <;> rfl

/-- A jump is read to its last chunk and moves the place, whatever is wanted. -/
theorem item_jump (mask : Mask) (s : Running) {n : Nat} (h : n < 2 ^ 26) (rest : List UInt8) :
    item mask (s.cursor (jumpChunks n ++ rest)) (pack Mode.pcJump.code Tag.long.code) =
      pcAfter s.pc (64 * n) >>= fun pc => .ok (none, (s.atPlace pc).cursor rest) := by
  have htag : tagOf (pack Mode.pcJump.code Tag.long.code) = .long := tagOf_pack _ .long
  have hcode : Mode.ofCode? (high (pack Mode.pcJump.code Tag.long.code)) = some .pcJump := by decide
  have hjump : readJump 4 (jumpChunks n ++ rest) = .ok (n, rest) :=
    readJump_jumpChunks rest (by omega)
  rw [item, htag]
  simp only [hcode, Running.cursor, hjump]
  rfl

/-- A search passes over a jump. -/
theorem seek_jumpBytes (mask : Mask) (s : Running) {distance : Nat} (hd : distance < 2 ^ 32)
    (rest : List UInt8) :
    seek mask (s.cursor (jumpBytes distance ++ rest)) =
      pcAfter s.pc (64 * (distance / 64)) >>= fun pc => seek mask ((s.atPlace pc).cursor rest) := by
  by_cases hsmall : distance < 64
  · have hzero : 64 * (distance / 64) = 0 := by omega
    rw [jumpBytes, if_pos hsmall, hzero, pcAfter_zero]
    rfl
  · have hjump := item_jump mask s (n := distance / 64) (by omega) rest
    rw [jumpBytes, if_neg hsmall, List.cons_append, seek_cursor_cons, hjump, seekItem_bind]
    rfl

end Cursor

/-- What a record begins with, behind its jump: a byte with a tag, or a mode byte and a pc byte. -/
inductive Head where
  | short (tag : Tag) (htag : tag ≠ .long)
  | long (mode : Mode) (hmode : mode ≠ .pcJump)

namespace Head

/-- The bytes of a beginning, with what is left of a distance. -/
def bytes (rest : Nat) : Head → List UInt8
  | short tag _ => [pack rest tag.code]
  | long mode _ => [pack mode.code Tag.long.code, UInt8.ofNat rest]

/-- The form in which an encoder puts it, with a jump in front if one is needed. -/
def form (distance : Nat) : Head → List UInt8
  | short tag _ => shortForm distance tag
  | long mode _ => longForm distance mode

theorem form_eq (head : Head) (distance : Nat) :
    head.form distance = jumpBytes distance ++ head.bytes (distance % 64) := by
  cases head <;> rfl

/-- Without a distance there is no jump. -/
theorem form_zero (head : Head) : head.form 0 = head.bytes 0 := by
  rw [form_eq, jumpBytes, if_pos (by decide), List.nil_append]

end Head

namespace Cursor

/-- A byte with a tag moves the place before anything else is read. -/
theorem item_short (mask : Mask) (s : Running) {tag : Tag} (htag : tag ≠ .long) {n : Nat}
    (hn : n < 64) (rest : List UInt8) :
    item mask (s.cursor rest) (pack n tag.code) =
      pcAfter s.pc n >>= fun pc => item mask ((s.atPlace pc).cursor rest) (pack 0 tag.code) := by
  have hcode : tag.code < 4 := by cases tag <;> decide
  have hzero : high (pack 0 tag.code) = 0 := high_pack (by decide) hcode
  have hrest : high (pack n tag.code) = n := high_pack hn hcode
  -- with nothing left of the distance the place stays where it is
  cases tag with
  | long => exact absurd rfl htag
  | embeddedObject | codeTarget | locatable =>
    simp only [item, tagOf_pack, hzero, hrest, Running.cursor, Running.atPlace, pcAfter_zero]
    rfl

/-- A mode byte is followed by a pc byte, which moves the place before the payload is read. -/
theorem item_mode_byte (mask : Mask) (s : Running) {mode : Mode} (hmode : mode ≠ .pcJump) {n : Nat}
    (hn : n < 64) (rest : List UInt8) :
    item mask (s.cursor (UInt8.ofNat n :: rest)) (pack mode.code Tag.long.code) =
      pcAfter s.pc n >>= fun pc =>
        item mask ((s.atPlace pc).cursor (0 :: rest)) (pack mode.code Tag.long.code) := by
  have htag : tagOf (pack mode.code Tag.long.code) = .long := tagOf_pack _ .long
  have hcode : Mode.ofCode? (high (pack mode.code Tag.long.code)) = some mode := by
    rw [high_pack (Nat.lt_trans mode.code_lt (by decide)) (by decide), Mode.ofCode?_code]
  have hbyte : (UInt8.ofNat n).toNat = n := by
    rw [UInt8.toNat_ofNat']
    omega
  have hzero : (0 : UInt8).toNat = 0 := rfl
  simp only [item, htag, hcode, Running.cursor, Running.atPlace, readByte, bind, Except.bind, hbyte,
    hzero, pcAfter_zero]

/-- What is left of a distance moves the place before anything else is done with the record. -/
theorem seek_head (mask : Mask) (s : Running) (head : Head) {n : Nat} (hn : n < 64)
    (behind : List UInt8) :
    seek mask (s.cursor (head.bytes n ++ behind)) =
      pcAfter s.pc n >>= fun pc => seek mask ((s.atPlace pc).cursor (head.bytes 0 ++ behind)) := by
  cases head with
  | short tag htag =>
    have hitem := item_short mask s htag hn behind
    rw [Head.bytes, List.singleton_append, seek_cursor_cons, hitem, seekItem_bind]
    exact bind_congr fun pc => (seek_cursor_cons mask _ _ _).symm
  | long mode hmode =>
    have hitem := item_mode_byte mask s hmode hn behind
    rw [Head.bytes, List.cons_append, List.singleton_append, seek_cursor_cons, hitem, seekItem_bind]
    exact bind_congr fun pc => (seek_cursor_cons mask _ _ _).symm

/-- **A record with a distance in front is the record without one, that much further on**, whatever
is wanted and whatever comes behind it. -/
theorem seek_form (mask : Mask) (s : Running) (head : Head) {distance : Nat}
    (hd : distance < 2 ^ 32) (behind : List UInt8) :
    seek mask (s.cursor (head.form distance ++ behind)) =
      pcAfter s.pc distance >>= fun pc =>
        seek mask ((s.atPlace pc).cursor (head.form 0 ++ behind)) := by
  have hsplit : 64 * (distance / 64) + distance % 64 = distance := Nat.div_add_mod distance 64
  rw [head.form_eq, head.form_zero, List.append_assoc, seek_jumpBytes mask s hd]
  calc (pcAfter s.pc (64 * (distance / 64)) >>= fun mid =>
        seek mask ((s.atPlace mid).cursor (head.bytes (distance % 64) ++ behind)))
      = pcAfter s.pc (64 * (distance / 64)) >>= fun mid =>
          pcAfter mid (distance % 64) >>= fun pc =>
            seek mask ((s.atPlace pc).cursor (head.bytes 0 ++ behind)) :=
        bind_congr fun mid => seek_head mask (s.atPlace mid) head (Nat.mod_lt _ (by decide)) behind
    _ = pcAfter s.pc distance >>= fun pc =>
          seek mask ((s.atPlace pc).cursor (head.bytes 0 ++ behind)) := by
        rw [← bind_assoc, pcAfter_add, hsplit]

end Cursor

/-- **Jumps are lossless.** For every distance of 32 bits, laying down its jump puts the same bytes
below any place of any buffer, or faults for lack of room, and leaves less than 64 of the distance.
There are no bytes for a distance below 64. For all others there are a mode byte and one to four
chunks, of which only the last one is marked, and a reader takes exactly these chunks. What is left
goes into the beginning of the record, as an encoder writes it. Whatever is wanted, and whatever
comes behind, a search from any place passes over the jump alone as over the distance without what
is left, and finds in jump and record what a search that starts the whole distance further on finds
in the record without a distance. -/
theorem seek_layJump (delta : UInt32) :
    ∃ jump rest,
      (∀ pos buffer, layJump delta.toNat pos buffer =
        place jump pos buffer >>= fun (pos, buffer) => .ok (rest, pos, buffer)) ∧
      rest < 64 ∧
      (delta.toNat < 64 → jump = [] ∧ rest = delta.toNat) ∧
      (64 ≤ delta.toNat → ∃ chunks, jump = pack Mode.pcJump.code Tag.long.code :: chunks ∧
        ChunksOf (delta.toNat / 64) chunks ∧ delta.toNat / 64 * 64 + rest = delta.toNat ∧
        ∀ behind, readJump 4 (chunks ++ behind) = .ok (delta.toNat / 64, behind)) ∧
      (∀ head : Head, head.form delta.toNat = jump ++ head.bytes rest) ∧
      ∀ (mask : Mask) (s : Running) (behind : List UInt8),
        Cursor.seek mask (s.cursor (jump ++ behind)) =
            (pcAfter s.pc (delta.toNat - rest) >>= fun pc =>
              Cursor.seek mask ((s.atPlace pc).cursor behind)) ∧
          ∀ head : Head, Cursor.seek mask (s.cursor (jump ++ head.bytes rest ++ behind)) =
            pcAfter s.pc delta.toNat >>= fun pc =>
              Cursor.seek mask ((s.atPlace pc).cursor (head.bytes 0 ++ behind)) := by
  have hd : delta.toNat < 2 ^ 32 := delta.toNat_lt
  refine ⟨jumpBytes delta.toNat, delta.toNat % 64, fun pos buffer => layJump_eq hd pos buffer,
    Nat.mod_lt _ (by decide), ?_, ?_, fun head => head.form_eq _, ?_⟩
  · intro hsmall
    exact ⟨if_pos hsmall, Nat.mod_eq_of_lt hsmall⟩
  · intro hlarge
    refine ⟨jumpChunks (delta.toNat / 64), if_neg (by omega), ?_, by omega, ?_⟩
    · exact chunksOf_jumpChunks (by omega) (by omega)
    · intro behind
      exact readJump_jumpChunks behind (by omega)
  · intro mask s behind
    have hcovered : delta.toNat - delta.toNat % 64 = 64 * (delta.toNat / 64) := by omega
    refine ⟨?_, fun head => ?_⟩
    · rw [hcovered]
      exact Cursor.seek_jumpBytes mask s hd behind
    · rw [← head.form_eq, ← head.form_zero]
      exact Cursor.seek_form mask s head hd behind

/-- The largest jump, and one with a chunk of zeros between its first and its last one. -/
example : (jumpBytes 4294967295).map UInt8.toNat = [87, 254, 254, 254, 63] ∧
    (jumpBytes 1048640).map UInt8.toNat = [87, 2, 0, 3] := by
  cbv

end CodeReloc
