import CodeReloc.Proofs.Stream.Trace
import CodeReloc.Proofs.Stream.Adding

set_option autoImplicit false

/-!
# Forms read back

A record is written in one of few forms, and each form reads back as that record whatever comes
after it. `Decodes s bytes found t` says so: a reader whose running numbers are `s` finds the
records `found` in `bytes` and goes on with the running numbers `t`. Forms are put together from
smaller ones by `Decodes.trans`; a jump finds nothing and only moves the place.

Main statements: `decodes_shortForm`, `decodes_deoptReason`, `decodes_id`, `decodes_position` and
`decodes_long`, one for each form that a record is written in.
-/

namespace CodeReloc

open Wire

/-- The running numbers of a reader. -/
structure Running where
  pc : UInt64
  lastId : Int32
  lastPosition : Int32
  deriving DecidableEq, Repr

namespace Running

/-- A cursor with these numbers. -/
def cursor (s : Running) (rest : List UInt8) : Cursor := ⟨rest, s.pc, s.lastId, s.lastPosition⟩

/-- The same ids and positions at another place. -/
def atPlace (s : Running) (pc : UInt64) : Running := { s with pc := pc }

end Running

/-- The bytes stand for the records, from one state of a reader to another. -/
def Decodes (s : Running) (bytes : List UInt8) (found : List Record) (t : Running) : Prop :=
  ∀ rest, (s.cursor (bytes ++ rest)).trace .all = ((t.cursor rest).trace .all).after found

namespace Decodes

theorem refl (s : Running) : Decodes s [] [] s := fun _ => rfl

theorem trans {s t u : Running} {xs ys : List UInt8} {found later : List Record}
    (h : Decodes s xs found t) (h' : Decodes t ys later u) :
    Decodes s (xs ++ ys) (found ++ later) u := by
  intro rest
  rw [List.append_assoc, h, h', Trace.after_append]

/-- Bytes that end the stream. -/
theorem trace_eq {s t : Running} {bytes : List UInt8} {found : List Record}
    (h : Decodes s bytes found t) : (s.cursor bytes).trace .all = ⟨found, none⟩ := by
  have hend : (t.cursor []).trace .all = .done := Cursor.trace_nil rfl
  have hall := h []
  rw [List.append_nil, hend] at hall
  rw [hall]
  simp [Trace.after, Trace.done]

/-- A stream of bytes that stand for records is read as these records. -/
theorem walkStream_eq {start : UInt64} {t : Running} {bytes : List UInt8} {found : List Record}
    {stream : ByteArray} (h : Decodes ⟨start, 0, 0⟩ bytes found t)
    (hstream : bytesOf stream = bytes.reverse) :
    walkStream stream start .all none = ⟨found.toArray, none⟩ := by
  apply Walk.toTrace_injective
  rw [toTrace_walkStream stream start (by decide), hstream, List.reverse_reverse]
  exact h.trace_eq

/-- One item. -/
theorem of_item {s t : Running} {first : UInt8} {bytes : List UInt8} (found : Option Record)
    (h : ∀ rest, Cursor.item .all (s.cursor (bytes ++ rest)) first = .ok (found, t.cursor rest)) :
    Decodes s (first :: bytes) found.toList t := by
  intro rest
  have hcons : (s.cursor (first :: bytes ++ rest)).rest = first :: (bytes ++ rest) := rfl
  rw [Cursor.trace_cons hcons]
  exact congrArg (Cursor.traceItem .all) (h rest)

end Decodes

/-! ## Jumps -/

theorem readJump_lastChunk {n : Nat} (k : Nat) (rest : List UInt8) (h : n < 128) :
    readJump (k + 1) (jumpChunks n ++ rest) = .ok (n, rest) := by
  rw [jumpChunks, if_pos h, List.singleton_append, readJump, isLastChunk_lastChunk, if_pos rfl,
    chunkDigits_lastChunk, Nat.mod_eq_of_lt h]

/-- A jump of at most `k + 1` chunks reads back. -/
theorem readJump_jumpChunks {k n : Nat} (rest : List UInt8) (h : n < 128 ^ (k + 1)) :
    readJump (k + 1) (jumpChunks n ++ rest) = .ok (n, rest) := by
  -- the induction is on the chunks that may still come, for every number that fits into them
  induction k generalizing n with
  | zero => exact readJump_lastChunk 0 rest h
  | succ k ih =>
    by_cases hn : n < 128
    · exact readJump_lastChunk (k + 1) rest hn
    · have hdiv : n / 128 < 128 ^ (k + 1) := by
        rw [Nat.div_lt_iff_lt_mul (by decide), ← Nat.pow_succ]
        exact h
      rw [jumpChunks, if_neg hn, List.cons_append, readJump, isLastChunk_chunk,
        if_neg Bool.false_ne_true, ih hdiv, chunkDigits_chunk]
      simp only [Except.ok.injEq, Prod.mk.injEq, and_true]
      omega

/-- What stands in front of a record moves the place by all but the low six bits of the
distance. -/
theorem decodes_jumpBytes {s : Running} {distance : Nat} {pc : UInt64} (hd : distance < 2 ^ 32)
    (hpc : pc.toNat = s.pc.toNat + 64 * (distance / 64)) :
    Decodes s (jumpBytes distance) [] (s.atPlace pc) := by
  by_cases hsmall : distance < 64
  · -- there is no jump, and the place stays where it is
    have hsame : pc = s.pc := by
      apply UInt64.toNat_inj.1
      omega
    rw [jumpBytes, if_pos hsmall, hsame]
    exact .refl s
  · rw [jumpBytes, if_neg hsmall]
    refine Decodes.of_item none fun rest => ?_
    have htag : tagOf (pack Mode.pcJump.code Tag.long.code) = .long := tagOf_pack _ .long
    have hmode : high (pack Mode.pcJump.code Tag.long.code) = Mode.pcJump.code :=
      high_pack (by decide) (by decide)
    have hjump : readJump 4 (jumpChunks (distance / 64) ++ rest) = .ok (distance / 64, rest) :=
      readJump_jumpChunks rest (by omega)
    have hplace : pcAfter s.pc (64 * (distance / 64)) = .ok pc := pcAfter_eq_ok.2 hpc
    simp only [Cursor.item, htag, hmode, Mode.ofCode?_code, Running.cursor, hjump, bind,
      Except.bind, hplace]
    rfl

/-- A form with its jump: what follows the jump covers the rest of the distance. -/
theorem decodes_after_jump {s t : Running} {distance : Nat} {bytes : List UInt8}
    {found : List Record} (hd : distance < 2 ^ 32) (ht : t.pc.toNat = s.pc.toNat + distance)
    (h : ∀ pc : UInt64, t.pc.toNat = pc.toNat + distance % 64 →
      Decodes (s.atPlace pc) bytes found t) :
    Decodes s (jumpBytes distance ++ bytes) found t := by
  -- the jump stays within 64 bits because the place behind it does
  have hlt := t.pc.toNat_lt
  have hpc : (UInt64.ofNat (s.pc.toNat + 64 * (distance / 64))).toNat =
      s.pc.toNat + 64 * (distance / 64) := by
    rw [UInt64.toNat_ofNat']
    omega
  exact (decodes_jumpBytes hd hpc).trans (h _ (by omega))

/-! ## Short records -/

theorem high_pack_distance (distance : Nat) (tag : Tag) :
    high (pack (distance % 64) tag.code) = distance % 64 :=
  high_pack (Nat.mod_lt _ (by decide)) (by cases tag <;> decide)

/-- A record that is no more than its place and a tag reads back. -/
theorem decodes_shortForm {s : Running} {distance : Nat} {pc : UInt64} {tag : Tag} {mode : Mode}
    (hd : distance < 2 ^ 32) (hpc : pc.toNat = s.pc.toNat + distance)
    (htag : tag = .embeddedObject ∧ mode = .embeddedObject ∨
      tag = .codeTarget ∧ mode = .codeTarget) :
    Decodes s (shortForm distance tag) [⟨pc, mode, 0⟩] (s.atPlace pc) := by
  refine decodes_after_jump hd hpc fun mid hmid => ?_
  refine Decodes.of_item (some _) fun rest => ?_
  have hplace : pcAfter mid (distance % 64) = .ok pc := pcAfter_eq_ok.2 hmid
  rcases htag with ⟨rfl, rfl⟩ | ⟨rfl, rfl⟩
  · simp only [Cursor.item, tagOf_pack, high_pack_distance, Running.cursor, Running.atPlace,
      hplace, bind, Except.bind, Cursor.yield_all]
    rfl
  · simp only [Cursor.item, tagOf_pack, high_pack_distance, Running.cursor, Running.atPlace,
      hplace, bind, Except.bind, Cursor.yield_all]
    rfl

/-- A short record with a data byte, once it is known what the data byte stands for. -/
theorem decodes_locatableForm {s t : Running} {distance : Nat} {kind : ShortKind} {data : Int32}
    {record : Record} (hd : distance < 2 ^ 32) (ht : t.pc.toNat = s.pc.toNat + distance)
    (h : ∀ rest, Cursor.locatable .all ((s.atPlace t.pc).cursor rest) (shortDataByte data kind) =
      (some record, t.cursor rest)) :
    Decodes s (locatableForm distance kind data) [record] t := by
  rw [locatableForm, shortForm, List.append_assoc, List.singleton_append]
  refine decodes_after_jump hd ht fun mid hmid => ?_
  refine Decodes.of_item (some record) fun rest => ?_
  have hplace : pcAfter mid (distance % 64) = .ok t.pc := pcAfter_eq_ok.2 hmid
  simp only [Cursor.item, tagOf_pack, high_pack_distance, Running.cursor, Running.atPlace, hplace,
    bind, Except.bind, List.singleton_append, readByte]
  exact congrArg Except.ok (h rest)

/-- A deopt reason reads back. -/
theorem decodes_deoptReason {s : Running} {distance : Nat} {pc : UInt64} {data : Int64}
    (hd : distance < 2 ^ 32) (hpc : pc.toNat = s.pc.toNat + distance)
    (hdata : inUnsigned data shortDataBits = true) :
    Decodes s (locatableForm distance .deoptReason data.toInt32) [⟨pc, .deoptReason, data⟩]
      (s.atPlace pc) := by
  refine decodes_locatableForm hd hpc fun rest => ?_
  have hkind : shortKindOf (shortDataByte data.toInt32 .deoptReason) = .deoptReason :=
    shortKindOf_pack _ _
  rw [Cursor.locatable, hkind, high_shortDataByte .deoptReason hdata, Cursor.yield_all]
  rfl

/-! ## Long records -/

/-- A mode byte and a pc byte lead to the payload of the mode. -/
theorem item_mode {s : Running} {first b : UInt8} {mode : Mode} (htag : tagOf first = .long)
    (hcode : Mode.ofCode? (high first) = some mode) (hmode : mode ≠ .pcJump) {pc : UInt64}
    (hpc : pc.toNat = s.pc.toNat + b.toNat) (rest : List UInt8) :
    Cursor.item .all (s.cursor (b :: rest)) first =
      Cursor.payload .all ((s.atPlace pc).cursor rest) mode := by
  have hplace : pcAfter s.pc b.toNat = .ok pc := pcAfter_eq_ok.2 hpc
  simp only [Cursor.item, htag, hcode, Running.cursor, Running.atPlace, readByte, bind,
    Except.bind, hplace]

/-- A mode byte that was written, and the rest of a distance. -/
theorem item_long {s : Running} {mode : Mode} (hmode : mode ≠ .pcJump) {n : Nat} (hn : n < 64)
    {pc : UInt64} (hpc : pc.toNat = s.pc.toNat + n) (rest : List UInt8) :
    Cursor.item .all (s.cursor (UInt8.ofNat n :: rest)) (pack mode.code Tag.long.code) =
      Cursor.payload .all ((s.atPlace pc).cursor rest) mode := by
  have htag : tagOf (pack mode.code Tag.long.code) = .long := tagOf_pack _ .long
  have hcode : Mode.ofCode? (high (pack mode.code Tag.long.code)) = some mode := by
    rw [high_pack (Nat.lt_trans mode.code_lt (by decide)) (by decide), Mode.ofCode?_code]
  have hbyte : (UInt8.ofNat n).toNat = n := by
    rw [UInt8.toNat_ofNat']
    omega
  rw [← hbyte] at hpc
  exact item_mode htag hcode hmode hpc rest

/-- A long record, once it is known what its payload stands for. -/
theorem decodes_longForm {s t : Running} {distance : Nat} {mode : Mode} {bytes : List UInt8}
    {record : Record} (hd : distance < 2 ^ 32) (ht : t.pc.toNat = s.pc.toNat + distance)
    (hmode : mode ≠ .pcJump)
    (h : ∀ rest, Cursor.payload .all ((s.atPlace t.pc).cursor (bytes ++ rest)) mode =
      .ok (some record, t.cursor rest)) :
    Decodes s (longForm distance mode ++ bytes) [record] t := by
  rw [longForm, List.append_assoc]
  refine decodes_after_jump hd ht fun mid hmid => ?_
  refine Decodes.of_item (some record) fun rest => ?_
  rw [← h rest]
  exact item_long hmode (Nat.mod_lt _ (by decide)) hmid (bytes ++ rest)

theorem readInt_intBytes (value : Int32) (rest : List UInt8) :
    readInt (intBytes value ++ rest) = .ok (value, rest) := by
  have hlt : value.toUInt32.toNat < 1 <<< (8 * intSize) := value.toUInt32.toNat_lt
  rw [readInt, intBytes, readBytes_leBytes, Nat.mod_eq_of_lt hlt]
  simp [bind, Except.bind, pure, Except.pure]

theorem readPointer_pointerBytes (value : Int64) (rest : List UInt8) :
    readPointer (pointerBytes value ++ rest) = .ok (value, rest) := by
  have hlt : value.toUInt64.toNat < 1 <<< (8 * pointerSize) := value.toUInt64.toNat_lt
  rw [readPointer, pointerBytes, readBytes_leBytes, Nat.mod_eq_of_lt hlt]
  simp [bind, Except.bind, pure, Except.pure]

/-- What a payload that is no difference reads back as. -/
def payloadData (mode : Mode) (data : Int64) : Int64 :=
  match mode.payload with
  | .none => 0
  | .int => data.toInt32.toInt64
  | .pointer => data

theorem decodes_long {s : Running} {distance : Nat} {pc : UInt64} {mode : Mode} (data : Int64)
    (hd : distance < 2 ^ 32) (hpc : pc.toNat = s.pc.toNat + distance) (hmode : mode ≠ .pcJump)
    (hid : mode ≠ .codeTargetWithId) (hpos : mode.isPosition = false) :
    Decodes s (longForm distance mode ++ payloadBytes mode data)
      [⟨pc, mode, payloadData mode data⟩] (s.atPlace pc) := by
  refine decodes_longForm hd hpc hmode fun rest => ?_
  rw [Cursor.payload_of_untracked hid hpos]
  simp only [Running.cursor, Running.atPlace, Mask.contains_all, if_true, payloadBytes, payloadData]
  cases mode.payload with
  | none => exact congrArg (fun found => Except.ok (found, _)) (Cursor.yield_all _ _ _)
  | int => simp only [readInt_intBytes, bind, Except.bind]
  | pointer => simp only [readPointer_pointerBytes, bind, Except.bind]

/-! ## Differences -/

/-- An id reads back from its difference to the last id, in either form. -/
theorem decodes_id {s : Running} {distance : Nat} {pc : UInt64} (delta : Int32)
    (hd : distance < 2 ^ 32) (hpc : pc.toNat = s.pc.toNat + distance) :
    Decodes s (deltaForm distance .codeTargetWithId .codeWithId delta)
      [⟨pc, .codeTargetWithId, (s.lastId + delta).toInt64⟩]
      ⟨pc, s.lastId + delta, s.lastPosition⟩ := by
  unfold deltaForm
  split
  · rename_i hshort
    refine decodes_locatableForm hd hpc fun rest => ?_
    have hkind : shortKindOf (shortDataByte delta .codeWithId) = .codeWithId :=
      shortKindOf_pack _ _
    rw [Cursor.locatable, hkind, signedHigh_shortDataByte .codeWithId hshort, Int32.ofInt_toInt]
    rfl
  · refine decodes_longForm hd hpc (by decide) fun rest => ?_
    simp only [Cursor.payload, Mask.contains_all, if_true, Running.cursor, readInt_intBytes, bind,
      Except.bind]
    rfl

/-- A position of either kind reads back from its difference to the last position, in either
form. -/
theorem decodes_position {s : Running} {distance : Nat} {pc : UInt64} {mode : Mode}
    {kind : ShortKind} (delta : Int32) (hd : distance < 2 ^ 32)
    (hpc : pc.toNat = s.pc.toNat + distance)
    (hmode : mode = .position ∧ kind = .position ∨
      mode = .statementPosition ∧ kind = .statementPosition) :
    Decodes s (deltaForm distance mode kind delta)
      [⟨pc, mode, (s.lastPosition + delta).toInt64⟩]
      ⟨pc, s.lastId, s.lastPosition + delta⟩ := by
  have hall : Mask.all.intersects .positions = true := by decide
  unfold deltaForm
  split
  · rename_i hshort
    refine decodes_locatableForm hd hpc fun rest => ?_
    rcases hmode with ⟨rfl, rfl⟩ | ⟨rfl, rfl⟩
    · have hkind : shortKindOf (shortDataByte delta .position) = .position := shortKindOf_pack _ _
      simp only [Cursor.locatable, hkind, Cursor.locatable.track, if_pos hall, Cursor.yield_all,
        signedHigh_shortDataByte .position hshort, Int32.ofInt_toInt]
      rfl
    · have hkind : shortKindOf (shortDataByte delta .statementPosition) = .statementPosition :=
        shortKindOf_pack _ _
      simp only [Cursor.locatable, hkind, Cursor.locatable.track, if_pos hall, Cursor.yield_all,
        signedHigh_shortDataByte .statementPosition hshort, Int32.ofInt_toInt]
      rfl
  · -- in the long form both modes are read by the same code
    have htrack (rest : List UInt8) : Cursor.payload.track .all
        ((s.atPlace pc).cursor (intBytes delta ++ rest)) mode =
          .ok (some ⟨pc, mode, (s.lastPosition + delta).toInt64⟩,
            Running.cursor ⟨pc, s.lastId, s.lastPosition + delta⟩ rest) := by
      simp only [Cursor.payload.track, if_pos hall, Running.cursor, readInt_intBytes, bind,
        Except.bind, Cursor.yield_all]
      rfl
    rcases hmode with ⟨rfl, rfl⟩ | ⟨rfl, rfl⟩
    · exact decodes_longForm hd hpc (by decide) htrack
    · exact decodes_longForm hd hpc (by decide) htrack

end CodeReloc
