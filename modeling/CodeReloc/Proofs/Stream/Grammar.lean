import CodeReloc.Proofs.Stream.Forms
import CodeReloc.Proofs.Stream.Moving

set_option autoImplicit false

/-!
# The grammar of a stream

Which bytes are a stream can be said without reading them. In reading order they are items, one
behind the other: a byte that is a record by itself, two bytes that are one, a jump with its chunks,
or a mode byte with a pc byte and as many bytes as the mode has for its data (`Item`). Each item
moves the place by a distance, and the distances together must not lead out of the range of
addresses (`Readable`).

A reader of everything gets to the end of such bytes and of no others. Where it does not, the one
thing that it can name is a mode byte that stands for no mode, behind items that it could read
(`NoModeAt`); running out of bytes and running out of addresses have no text.

Main statement: `walkStream_readable_iff`.
-/

namespace CodeReloc

open Wire

/-! ## Items -/

/-- The chunks of a jump that has at most `k`: only the last one is marked, or there are `k` of them
and none is. -/
def JumpChunks (k : Nat) (chunks : List UInt8) : Prop :=
  (∃ before last, chunks = before ++ [last] ∧ before.length < k ∧
      (∀ b ∈ before, b.toNat % 2 = 0) ∧ last.toNat % 2 = 1) ∨
    (chunks.length = k ∧ ∀ b ∈ chunks, b.toNat % 2 = 0)

/-- The number whose digits are the high seven bits of the chunks, the lowest first. -/
def jumpDigits : List UInt8 → Nat
  | [] => 0
  | b :: chunks => b.toNat / 2 + 128 * jumpDigits chunks

/-- The bytes behind the pc byte of a long record. -/
def Mode.payloadSize : Mode → Nat
  | comment => 8
  | codeTargetWithId | position | statementPosition | constPool | veneerPool
  | debugBreakSlotAtCall => 4
  | _ => 0

/-- The bytes of one item, in reading order, and the distance by which it moves the place. -/
inductive Item : List UInt8 → Nat → Prop where
  | short {first : UInt8} (htag : first.toNat % 4 = 0 ∨ first.toNat % 4 = 1) :
      Item [first] (first.toNat / 4)
  | located {first : UInt8} (data : UInt8) (htag : first.toNat % 4 = 2) :
      Item [first, data] (first.toNat / 4)
  | jump {first : UInt8} {chunks : List UInt8} (htag : first.toNat % 4 = 3)
      (hcode : first.toNat / 4 = 21) (hchunks : JumpChunks 4 chunks) :
      Item (first :: chunks) (64 * jumpDigits chunks)
  | long {first : UInt8} {mode : Mode} (pc : UInt8) {payload : List UInt8}
      (htag : first.toNat % 4 = 3) (hmode : first.toNat / 4 = mode.code)
      (hcode : mode.code ≤ 20 ∨ 23 ≤ mode.code ∧ mode.code ≤ 25)
      (hlength : payload.length = mode.payloadSize) :
      Item (first :: pc :: payload) pc.toNat

/-- Bytes that are items, one behind the other, and the distance that these cover together. -/
inductive Items : List UInt8 → Nat → Prop where
  | nil : Items [] 0
  | cons {first rest : List UInt8} {n m : Nat} (hfirst : Item first n) (hrest : Items rest m) :
      Items (first ++ rest) (n + m)

/-- The bytes are items that stay within the range of addresses when they are read from `pc` on. -/
def Readable (pc : UInt64) (bytes : List UInt8) : Prop :=
  ∃ n, Items bytes n ∧ pc.toNat + n < 2 ^ 64

/-- Behind bytes that can be read from `pc` on stands a mode byte with a code `n` that no mode has. -/
def NoModeAt (pc : UInt64) (bytes : List UInt8) (n : Nat) : Prop :=
  ∃ before first after, bytes = before ++ first :: after ∧ Readable pc before ∧
    first.toNat % 4 = 3 ∧ first.toNat / 4 = n ∧ (n = 22 ∨ 26 ≤ n ∧ n ≤ 63)

/-! ## Parts of the first byte -/

/-- The tag of a byte is its low two bits. -/
theorem mod_eq_tagOf (b : UInt8) : b.toNat % 4 = (tagOf b).code := by
  have hcases : low b = 0 ∨ low b = 1 ∨ low b = 2 ∨ low b = 3 := by
    unfold low
    omega
  change low b = _
  rcases hcases with h | h | h | h
  all_goals simp [tagOf, h, Tag.code]

theorem tagOf_eq_of_mod {b : UInt8} (tag : Tag) (h : b.toNat % 4 = tag.code) : tagOf b = tag := by
  rw [mod_eq_tagOf] at h
  cases htag : tagOf b <;> cases tag <;> simp [htag, Tag.code] at h ⊢

/-- The codes that are left out are those of no mode. -/
theorem ofCode?_eq_none_iff {n : Nat} : Mode.ofCode? n = none ↔ n = 22 ∨ 26 ≤ n := by
  constructor
  · intro h
    unfold Mode.ofCode? at h
    split at h
    case h_26 => grind
    all_goals cases h
  · intro h
    cases hmode : Mode.ofCode? n with
    | none => rfl
    | some mode =>
      have hcode := Mode.code_of_ofCode? hmode
      have hlt := mode.code_lt
      have hne : mode.code ≠ 22 := by cases mode <;> decide
      omega

/-- Of the codes of modes only that of a jump is not the code of a long record. -/
theorem ne_pcJump_iff {mode : Mode} :
    mode ≠ .pcJump ↔ mode.code ≤ 20 ∨ 23 ≤ mode.code ∧ mode.code ≤ 25 := by
  cases mode <;> decide

/-! ## Chunks -/

/-- Chunks end with one that is marked, or go on behind one that is not. -/
theorem jumpChunks_succ_iff {k : Nat} {chunks : List UInt8} :
    JumpChunks (k + 1) chunks ↔
      ∃ b rest, chunks = b :: rest ∧
        (b.toNat % 2 = 1 ∧ rest = [] ∨ b.toNat % 2 = 0 ∧ JumpChunks k rest) := by
  constructor
  · rintro (⟨before, last, rfl, hlength, hbefore, hlast⟩ | ⟨hlength, hall⟩)
    · cases before with
      | nil => exact ⟨last, [], rfl, Or.inl ⟨hlast, rfl⟩⟩
      | cons b before =>
        refine ⟨b, before ++ [last], rfl, Or.inr ⟨hbefore b List.mem_cons_self, ?_⟩⟩
        refine Or.inl ⟨before, last, rfl, Nat.lt_of_succ_lt_succ hlength, ?_, hlast⟩
        intro c hc
        exact hbefore c (List.mem_cons_of_mem b hc)
    · cases chunks with
      | nil => cases hlength
      | cons b rest =>
        refine ⟨b, rest, rfl, Or.inr ⟨hall b List.mem_cons_self, Or.inr ⟨?_, ?_⟩⟩⟩
        · exact Nat.succ.inj hlength
        · intro c hc
          exact hall c (List.mem_cons_of_mem b hc)
  · rintro ⟨b, rest, rfl, ⟨hb, rfl⟩ | ⟨hb, hrest⟩⟩
    · exact Or.inl ⟨[], b, rfl, Nat.succ_pos k, by simp, hb⟩
    · rcases hrest with ⟨before, last, rfl, hlength, hbefore, hlast⟩ | ⟨rfl, hall⟩
      · refine Or.inl ⟨b :: before, last, rfl, Nat.succ_lt_succ hlength, ?_, hlast⟩
        simpa [hb] using hbefore
      · refine Or.inr ⟨rfl, ?_⟩
        simpa [hb] using hall

theorem isLastChunk_iff {b : UInt8} : isLastChunk b = true ↔ b.toNat % 2 = 1 := by
  simp [isLastChunk, lastChunkMark]

/-- **A jump is read from its chunks**, and from nothing else. -/
theorem readJump_eq_ok {k n : Nat} {bytes rest : List UInt8} :
    readJump k bytes = .ok (n, rest) ↔
      ∃ chunks, JumpChunks k chunks ∧ bytes = chunks ++ rest ∧ n = jumpDigits chunks := by
  induction k generalizing n bytes with
  | zero =>
    constructor
    · intro h
      cases h
      exact ⟨[], Or.inr ⟨rfl, by simp⟩, rfl, rfl⟩
    · rintro ⟨chunks, ⟨before, last, -, hlength, -⟩ | ⟨hlength, -⟩, rfl, rfl⟩
      · exact absurd hlength (Nat.not_lt_zero _)
      · rw [List.length_eq_zero_iff.1 hlength]
        rfl
  | succ k ih =>
    constructor
    · intro h
      cases bytes with
      | nil => cases h
      | cons b bytes =>
        rw [readJump] at h
        split at h
        · rename_i hmark
          cases h
          refine ⟨[b], jumpChunks_succ_iff.2 ⟨b, [], rfl, Or.inl ⟨?_, rfl⟩⟩, rfl, ?_⟩
          · exact isLastChunk_iff.1 hmark
          · simp [jumpDigits, chunkDigits]
        · rename_i hmark
          rw [isLastChunk_iff] at hmark
          split at h
          · rename_i hjump
            cases h
            obtain ⟨chunks, hchunks, rfl, rfl⟩ := ih.1 hjump
            refine ⟨b :: chunks, jumpChunks_succ_iff.2 ⟨b, chunks, rfl, Or.inr ⟨?_, hchunks⟩⟩,
              rfl, rfl⟩
            omega
          · cases h
    · rintro ⟨chunks, hchunks, rfl, rfl⟩
      obtain ⟨b, more, rfl, ⟨hb, rfl⟩ | ⟨hb, hmore⟩⟩ := jumpChunks_succ_iff.1 hchunks
      · rw [List.singleton_append, readJump, isLastChunk_iff.2 hb]
        simp [jumpDigits, chunkDigits]
      · have hmark : isLastChunk b = false := by
          rw [← Bool.not_eq_true, isLastChunk_iff]
          omega
        have hjump := ih.2 ⟨more, hmore, rfl, rfl⟩
        rw [List.cons_append, readJump, hmark, hjump]
        rfl

/-! ## Payloads -/

/-- The bytes of a word are as many as it has. -/
theorem readBytes_inv {k n : Nat} {bytes rest : List UInt8}
    (h : readBytes k bytes = .ok (n, rest)) :
    ∃ used, used.length = k ∧ bytes = used ++ rest := by
  induction k generalizing n bytes with
  | zero =>
    cases h
    exact ⟨[], rfl, rfl⟩
  | succ k ih =>
    cases bytes with
    | nil => cases h
    | cons b bytes =>
      rw [readBytes] at h
      split at h
      · rename_i hmore
        cases h
        obtain ⟨used, rfl, rfl⟩ := ih hmore
        exact ⟨b :: used, rfl, rfl⟩
      · cases h

/-- A word is read from its bytes, whatever follows them. -/
theorem readBytes_append (used : List UInt8) :
    ∃ n, ∀ rest, readBytes used.length (used ++ rest) = .ok (n, rest) := by
  induction used with
  | nil => exact ⟨0, fun _ => rfl⟩
  | cons b used ih =>
    obtain ⟨n, hn⟩ := ih
    refine ⟨b.toNat + 256 * n, fun rest => ?_⟩
    rw [List.length_cons, List.cons_append, readBytes, hn]

theorem payloadSize_eq (mode : Mode) :
    mode.payloadSize =
      match mode.payload with
      | .none => 0
      | .int => intSize
      | .pointer => pointerSize := by
  cases mode <;> rfl

/-- **What follows a pc byte is read as one word**, as long as the mode has it. The word is the data
of the record or its difference from the last id or position. -/
theorem payload_eq_readBytes (s : Running) (mode : Mode) :
    ∃ (data : Nat → Int64) (t : Nat → Running), (∀ n, (t n).pc = s.pc) ∧
      ∀ rest, Cursor.payload .all (s.cursor rest) mode =
        readBytes mode.payloadSize rest >>= fun answer =>
          .ok (some ⟨s.pc, mode, data answer.1⟩, (t answer.1).cursor answer.2) := by
  have hall : Mask.all.intersects .positions = true := by decide
  by_cases hid : mode = .codeTargetWithId
  · subst hid
    refine ⟨fun n => (s.lastId + (UInt32.ofNat n).toInt32).toInt64,
      fun n => { s with lastId := s.lastId + (UInt32.ofNat n).toInt32 }, fun _ => rfl, ?_⟩
    intro rest
    rw [Cursor.payload, if_pos (Mask.contains_all _), Cursor.readInt_bind]
    rfl
  by_cases hposition : mode.isPosition = true
  · -- both modes of positions go through the same code
    have htrack : ∀ c, Cursor.payload .all c mode = Cursor.payload.track .all c mode := by
      intro c
      cases mode <;> first | rfl | cases hposition
    have hsize : mode.payloadSize = intSize := by
      cases mode <;> first | rfl | cases hposition
    refine ⟨fun n => (s.lastPosition + (UInt32.ofNat n).toInt32).toInt64,
      fun n => { s with lastPosition := s.lastPosition + (UInt32.ofNat n).toInt32 },
      fun _ => rfl, ?_⟩
    intro rest
    rw [htrack, Cursor.payload.track, if_pos hall, Cursor.readInt_bind, hsize]
    simp only [Cursor.yield_all]
    rfl
  · have huntracked : mode.isPosition = false := by simpa using hposition
    rw [payloadSize_eq]
    cases hpayload : mode.payload with
    | none =>
      refine ⟨fun _ => 0, fun _ => s, fun _ => rfl, ?_⟩
      intro rest
      rw [Cursor.payload_of_untracked hid huntracked, hpayload]
      simp only [Cursor.yield_all]
      rfl
    | int =>
      refine ⟨fun n => (UInt32.ofNat n).toInt32.toInt64, fun _ => s, fun _ => rfl, ?_⟩
      intro rest
      rw [Cursor.payload_of_untracked hid huntracked, hpayload]
      simp only [Mask.contains_all, if_true, Cursor.readInt_bind]
      rfl
    | pointer =>
      refine ⟨fun n => (UInt64.ofNat n).toInt64, fun _ => s, fun _ => rfl, ?_⟩
      intro rest
      rw [Cursor.payload_of_untracked hid huntracked, hpayload]
      simp only [Mask.contains_all, if_true, Cursor.readPointer_bind]
      rfl

/-- **A data byte is a record**, whatever follows it. -/
theorem locatable_eq (s : Running) (b : UInt8) :
    ∃ (r : Record) (t : Running), t.pc = s.pc ∧ r.mode ≠ .pcJump ∧
      ∀ rest, Cursor.locatable .all (s.cursor rest) b = (some r, t.cursor rest) := by
  have hall : Mask.all.intersects .positions = true := by decide
  cases hkind : shortKindOf b with
  | codeWithId =>
    refine ⟨⟨s.pc, .codeTargetWithId, (s.lastId + Int32.ofInt (signedHigh b)).toInt64⟩,
      { s with lastId := s.lastId + Int32.ofInt (signedHigh b) }, rfl, by simp, ?_⟩
    intro rest
    rw [Cursor.locatable, hkind]
    rfl
  | deoptReason =>
    refine ⟨⟨s.pc, .deoptReason, Int64.ofNat (high b)⟩, s, rfl, by simp, ?_⟩
    intro rest
    rw [Cursor.locatable, hkind, Cursor.yield_all]
    rfl
  | position =>
    refine ⟨⟨s.pc, .position, (s.lastPosition + Int32.ofInt (signedHigh b)).toInt64⟩,
      { s with lastPosition := s.lastPosition + Int32.ofInt (signedHigh b) }, rfl, by simp, ?_⟩
    intro rest
    simp only [Cursor.locatable, hkind, Cursor.locatable.track, if_pos hall, Cursor.yield_all]
    rfl
  | statementPosition =>
    refine ⟨⟨s.pc, .statementPosition, (s.lastPosition + Int32.ofInt (signedHigh b)).toInt64⟩,
      { s with lastPosition := s.lastPosition + Int32.ofInt (signedHigh b) }, rfl, by simp, ?_⟩
    intro rest
    simp only [Cursor.locatable, hkind, Cursor.locatable.track, if_pos hall, Cursor.yield_all]
    rfl

/-! ## Reading items -/

theorem pcAfter_of_lt {pc : UInt64} {n : Nat} (h : pc.toNat + n < 2 ^ 64) :
    ∃ q, pcAfter pc n = .ok q ∧ q.toNat = pc.toNat + n := by
  cases hq : pcAfter pc n with
  | ok q => exact ⟨q, rfl, pcAfter_eq_ok.1 hq⟩
  | error fault =>
    obtain ⟨hfar, -⟩ := pcAfter_eq_error.1 hq
    omega

/-- **An item is read**, whatever follows it, if the place that it leads to is an address. -/
theorem Item.decodes {used : List UInt8} {n : Nat} (h : Item used n) {s : Running}
    (hpc : s.pc.toNat + n < 2 ^ 64) :
    ∃ found t, Decodes s used found t ∧ t.pc.toNat = s.pc.toNat + n := by
  obtain ⟨q, hplace, hq⟩ := pcAfter_of_lt hpc
  cases h with
  | @short first htag =>
    change pcAfter s.pc (high first) = _ at hplace
    rcases htag with htag | htag
    · refine ⟨_, s.atPlace q, Decodes.of_item (some ⟨q, .embeddedObject, 0⟩) fun rest => ?_, hq⟩
      rw [Cursor.item, tagOf_eq_of_mod .embeddedObject htag]
      simp only [Running.cursor, hplace, bind, Except.bind, Cursor.yield_all]
      rfl
    · refine ⟨_, s.atPlace q, Decodes.of_item (some ⟨q, .codeTarget, 0⟩) fun rest => ?_, hq⟩
      rw [Cursor.item, tagOf_eq_of_mod .codeTarget htag]
      simp only [Running.cursor, hplace, bind, Except.bind, Cursor.yield_all]
      rfl
  | @located first data htag =>
    change pcAfter s.pc (high first) = _ at hplace
    obtain ⟨r, t, ht, -, hlocatable⟩ := locatable_eq (s.atPlace q) data
    refine ⟨_, t, Decodes.of_item (some r) fun rest => ?_, ht ▸ hq⟩
    rw [Cursor.item, tagOf_eq_of_mod .locatable htag]
    simp only [Running.cursor, hplace, bind, Except.bind, List.singleton_append, readByte]
    exact congrArg Except.ok (hlocatable rest)
  | @jump first chunks htag hcode hchunks =>
    refine ⟨_, s.atPlace q, Decodes.of_item none fun rest => ?_, hq⟩
    have hmode : Mode.ofCode? (high first) = some .pcJump := by
      change Mode.ofCode? (first.toNat / 4) = _
      rw [hcode]
      rfl
    have hjump : readJump 4 (chunks ++ rest) = .ok (jumpDigits chunks, rest) :=
      readJump_eq_ok.2 ⟨chunks, hchunks, rfl, rfl⟩
    rw [Cursor.item, tagOf_eq_of_mod .long htag]
    simp only [hmode, Running.cursor, hjump, hplace, bind, Except.bind]
    rfl
  | @long first mode pc payload htag hmode hcode hlength =>
    obtain ⟨data, t, ht, hpayload⟩ := payload_eq_readBytes (s.atPlace q) mode
    obtain ⟨word, hword⟩ := readBytes_append payload
    rw [hlength] at hword
    have hfirst : Mode.ofCode? (high first) = some mode := by
      change Mode.ofCode? (first.toNat / 4) = _
      rw [hmode, Mode.ofCode?_code]
    refine ⟨_, t word, Decodes.of_item (some ⟨q, mode, data word⟩) fun rest => ?_, ?_⟩
    · rw [List.cons_append, item_mode (tagOf_eq_of_mod .long htag) hfirst
        (ne_pcJump_iff.2 hcode) hq, hpayload, hword]
      rfl
    · rw [ht]
      exact hq

/-- **Bytes that can be read are read**, whatever follows them. -/
theorem Items.decodes {bytes : List UInt8} {n : Nat} (h : Items bytes n) {s : Running}
    (hpc : s.pc.toNat + n < 2 ^ 64) :
    ∃ found t, Decodes s bytes found t ∧ t.pc.toNat = s.pc.toNat + n := by
  induction h generalizing s with
  | nil => exact ⟨[], s, .refl s, rfl⟩
  | cons hfirst hrest ih =>
    -- every item leads no farther than all of them do
    obtain ⟨found, t, hdecodes, ht⟩ := hfirst.decodes (s := s) (by omega)
    obtain ⟨later, u, hdecodes', hu⟩ := ih (s := t) (by omega)
    exact ⟨found ++ later, u, hdecodes.trans hdecodes', by omega⟩

/-- **What has been read was an item.** -/
theorem item_inv {s : Running} {first : UInt8} {bytes : List UInt8} {found : Option Record}
    {c : Cursor} (h : Cursor.item .all (s.cursor bytes) first = .ok (found, c)) :
    ∃ used n, Item used n ∧ first :: bytes = used ++ c.rest ∧ c.pc.toNat = s.pc.toNat + n ∧
      ∀ r ∈ found, r.mode ≠ .pcJump := by
  have htag := mod_eq_tagOf first
  unfold Cursor.item at h
  split at h
  · rename_i hfirst
    obtain ⟨q, hq, h⟩ := bind_eq_ok.1 h
    cases h
    rw [hfirst] at htag
    refine ⟨_, _, .short (Or.inl htag), rfl, pcAfter_eq_ok.1 hq, ?_⟩
    simp [Cursor.yield_all]
  · rename_i hfirst
    obtain ⟨q, hq, h⟩ := bind_eq_ok.1 h
    cases h
    rw [hfirst] at htag
    refine ⟨_, _, .short (Or.inr htag), rfl, pcAfter_eq_ok.1 hq, ?_⟩
    simp [Cursor.yield_all]
  · rename_i hfirst
    obtain ⟨q, hq, hrest⟩ := bind_eq_ok.1 h
    obtain ⟨⟨data, rest⟩, hdata, hanswer⟩ := bind_eq_ok.1 hrest
    obtain ⟨r, t, ht, hr, hlocatable⟩ := locatable_eq (s.atPlace q) data
    cases bytes with
    | nil => cases hdata
    | cons b bytes =>
      obtain ⟨rfl, rfl⟩ := Prod.mk.inj (Except.ok.inj hdata)
      cases (congrArg Except.ok (hlocatable bytes)).symm.trans hanswer
      rw [hfirst] at htag
      refine ⟨_, _, .located b htag, rfl, ?_, by simpa using hr⟩
      change t.pc.toNat = _
      rw [ht]
      exact pcAfter_eq_ok.1 hq
  · rename_i hfirst
    rw [hfirst] at htag
    split at h
    · cases h
    · rename_i hmode
      obtain ⟨⟨jump, rest⟩, hjump, h⟩ := bind_eq_ok.1 h
      obtain ⟨q, hq, h⟩ := bind_eq_ok.1 h
      cases h
      obtain ⟨chunks, hchunks, hbytes, rfl⟩ := readJump_eq_ok.1 hjump
      have hcode : first.toNat / 4 = 21 := (Mode.code_of_ofCode? hmode).symm
      refine ⟨_, _, .jump htag hcode hchunks, ?_, pcAfter_eq_ok.1 hq, by simp⟩
      exact congrArg (first :: ·) hbytes
    · rename_i mode hjump hmode
      obtain ⟨⟨distance, rest⟩, hdistance, hrest⟩ := bind_eq_ok.1 h
      obtain ⟨q, hq, hanswer⟩ := bind_eq_ok.1 hrest
      cases bytes with
      | nil => cases hdistance
      | cons b bytes =>
        obtain ⟨rfl, rfl⟩ := Prod.mk.inj (Except.ok.inj hdistance)
        obtain ⟨data, t, ht, hpayload⟩ := payload_eq_readBytes (s.atPlace q) mode
        have hread := (hpayload bytes).symm.trans hanswer
        obtain ⟨⟨word, rest⟩, hword, hend⟩ := bind_eq_ok.1 hread
        cases hend
        obtain ⟨used, hlength, rfl⟩ := readBytes_inv hword
        have hcode : first.toNat / 4 = mode.code := (Mode.code_of_ofCode? hmode).symm
        refine ⟨_, _, .long b htag hcode (ne_pcJump_iff.1 hjump) hlength, rfl, ?_,
          by simpa using hjump⟩
        change (t word).pc.toNat = _
        rw [ht]
        exact pcAfter_eq_ok.1 hq

theorem OnlyBreach.pcAfter (pc : UInt64) (n : Nat) : OnlyBreach (pcAfter pc n) := by
  intro fault h
  exact (pcAfter_eq_error.1 h).2

theorem OnlyBreach.readJump (k : Nat) (bytes : List UInt8) : OnlyBreach (readJump k bytes) := by
  induction k generalizing bytes with
  | zero => exact .ok _
  | succ k ih =>
    cases bytes with
    | nil => exact .breach
    | cons b bytes =>
      rw [CodeReloc.readJump]
      split
      · exact .ok _
      · split
        · exact .ok _
        · rename_i fault hrest
          rw [ih bytes fault hrest]
          exact .breach

/-- **What cannot be read** has run out of bytes or of addresses, or begins with a mode byte that
stands for no mode. -/
theorem item_error {c : Cursor} {first : UInt8} {fault : Fault}
    (h : Cursor.item .all c first = .error fault) :
    fault = .breach ∨ fault = .invalidMode (high first) ∧ tagOf first = .long ∧
      Mode.ofCode? (high first) = none := by
  unfold Cursor.item at h
  split at h
  · exact Or.inl ((OnlyBreach.pcAfter _ _).bind (fun _ => .ok _) fault h)
  · exact Or.inl ((OnlyBreach.pcAfter _ _).bind (fun _ => .ok _) fault h)
  · left
    refine (OnlyBreach.pcAfter _ _).bind (fun _ => ?_) fault h
    exact (OnlyBreach.readByte _).bind fun _ => .ok _
  · rename_i htag
    split at h
    · rename_i hmode
      cases h
      exact Or.inr ⟨rfl, htag, hmode⟩
    · left
      refine (OnlyBreach.readJump _ _).bind (fun _ => ?_) fault h
      exact (OnlyBreach.pcAfter _ _).bind fun _ => .ok _
    · left
      refine (OnlyBreach.readByte _).bind (fun _ => ?_) fault h
      exact (OnlyBreach.pcAfter _ _).bind fun _ => Cursor.payload_onlyBreach _ _

/-! ## Reading to the end -/

/-- How a reading from `pc` on ends. -/
inductive Ending (pc : UInt64) (bytes : List UInt8) : Option Fault → Prop where
  | done (h : Readable pc bytes) : Ending pc bytes none
  | noMode {n : Nat} (h : NoModeAt pc bytes n) : Ending pc bytes (some (.invalidMode n))
  | breach : Ending pc bytes (some .breach)

theorem Readable.nil (pc : UInt64) : Readable pc [] := ⟨0, .nil, pc.toNat_lt⟩

section Step

variable {pc q : UInt64} {used bytes : List UInt8} {n : Nat}

/-- An item in front of bytes that can be read. -/
theorem Readable.cons (hused : Item used n) (hq : q.toNat = pc.toNat + n) (h : Readable q bytes) :
    Readable pc (used ++ bytes) := by
  obtain ⟨m, hbytes, hm⟩ := h
  exact ⟨n + m, .cons hused hbytes, by omega⟩

/-- An item in front of bytes does not change how their reading ends. -/
theorem Ending.cons {stopped : Option Fault} (hused : Item used n)
    (hq : q.toNat = pc.toNat + n) (h : Ending q bytes stopped) :
    Ending pc (used ++ bytes) stopped := by
  cases h with
  | done h => exact .done (h.cons hused hq)
  | noMode h =>
    obtain ⟨before, first, after, rfl, hbefore, hfirst⟩ := h
    refine .noMode ⟨used ++ before, first, after, ?_, hbefore.cons hused hq, hfirst⟩
    rw [List.append_assoc]
  | breach => exact .breach

end Step

namespace Cursor

/-- **A reading ends in one of three ways.** -/
theorem trace_ending (c : Cursor) : Ending c.pc c.rest (c.trace .all).stopped := by
  fun_induction trace .all c with
  | case1 c hc =>
    rw [hc]
    exact .done (.nil c.pc)
  | case2 c first rest hc fault hitem =>
    rw [hc]
    rcases item_error hitem with rfl | ⟨rfl, htag, hmode⟩
    · exact .breach
    · have hlt := high_lt first
      have hfirst := mod_eq_tagOf first
      rw [htag] at hfirst
      refine .noMode ⟨[], first, rest, rfl, .nil c.pc, hfirst, rfl, ?_⟩
      rcases ofCode?_eq_none_iff.1 hmode with hcode | hcode
      · exact Or.inl hcode
      · exact Or.inr ⟨hcode, by omega⟩
  | case3 c first rest hc found c' hitem bound ih =>
    obtain ⟨used, n, hused, hbytes, hpc, -⟩ :=
      item_inv (s := ⟨c.pc, c.lastId, c.lastPosition⟩) hitem
    rw [hc, hbytes]
    exact ih.cons hused hpc

/-- Bytes that can be read are read to their end. -/
theorem stopped_of_readable {c : Cursor} (h : Readable c.pc c.rest) :
    (c.trace .all).stopped = none := by
  obtain ⟨n, hbytes, hn⟩ := h
  obtain ⟨found, t, hdecodes, -⟩ := hbytes.decodes (s := ⟨c.pc, c.lastId, c.lastPosition⟩) hn
  exact congrArg Trace.stopped hdecodes.trace_eq

/-- A mode byte that stands for no mode is where the reading stops. -/
theorem stopped_of_noModeAt {c : Cursor} {n : Nat} (h : NoModeAt c.pc c.rest n) :
    (c.trace .all).stopped = some (.invalidMode n) := by
  obtain ⟨before, first, after, hbytes, ⟨m, hbefore, hm⟩, htag, rfl, hcode⟩ := h
  obtain ⟨found, t, hdecodes, -⟩ := hbefore.decodes (s := ⟨c.pc, c.lastId, c.lastPosition⟩) hm
  have hmode : Mode.ofCode? (high first) = none :=
    ofCode?_eq_none_iff.2 (hcode.imp id And.left)
  have hitem : item .all (t.cursor after) first = .error (.invalidMode (high first)) := by
    rw [item, tagOf_eq_of_mod .long htag]
    simp only [hmode]
  have hsame : c = Running.cursor ⟨c.pc, c.lastId, c.lastPosition⟩ (before ++ first :: after) := by
    rw [← hbytes]
    rfl
  rw [hsame, hdecodes, trace_cons (c := t.cursor (first :: after)) rfl]
  exact congrArg (fun answer => ((traceItem .all answer).after found).stopped) hitem

/-- A jump is no record. -/
theorem mode_ne_pcJump {c : Cursor} {r : Record} (h : r ∈ (c.trace .all).records) :
    r.mode ≠ .pcJump := by
  fun_induction trace .all c with
  | case1 c hc => cases h
  | case2 c first rest hc fault hitem => cases h
  | case3 c first rest hc found c' hitem bound ih =>
    obtain ⟨-, -, -, -, -, hfound⟩ := item_inv (s := ⟨c.pc, c.lastId, c.lastPosition⟩) hitem
    rcases List.mem_append.1 h with hfirst | hrest
    · exact hfound r (Option.mem_toList.1 hfirst)
    · exact ih hrest

end Cursor

/-! ## Walks -/

/-- The texts of two mode bytes are the same only if the codes are. -/
theorem message?_invalidMode_inj {m n : Nat}
    (h : (Fault.invalidMode m).message? = some s!"invalid relocation mode {n}") : m = n := by
  have htext := (String.append_right_inj _).1 (Option.some.inj h)
  have hdigits : Nat.toDigits 10 m = Nat.toDigits 10 n := String.ofList_injective htext
  calc m = Nat.ofDigitChars 10 (Nat.toDigits 10 m) 0 :=
        (Nat.ofDigitChars_toDigits (by decide) (by decide)).symm
    _ = n := by rw [hdigits, Nat.ofDigitChars_toDigits (by decide) (by decide)]

/-- No walk stands on a jump, whatever is wanted. -/
theorem walkStream_mode_ne_pcJump (stream : ByteArray) (pc : UInt64) (mask : Mask)
    (age : Option UInt64) {r : Record} (h : r ∈ (walkStream stream pc mask age).records) :
    r.mode ≠ .pcJump := by
  have htrace := toTrace_walkStream_looked stream pc mask age
  generalize (if mask.isEmpty then [] else (bytesOf stream).reverse) = rest at htrace
  have hlisted : r ∈ (walkStream stream pc mask age).toTrace.records := Array.mem_toList_iff.2 h
  rw [htrace, Cursor.trace_mask, Trace.closedBy] at hlisted
  rcases List.mem_append.1 hlisted with hfound | hlast
  · exact Cursor.mode_ne_pcJump (List.mem_filter.1 hfound).1
  · -- behind the records of the stream there is only a code age sequence
    have hclosing : r ∈ (Reader.closing mask age).toList := by
      split at hlast
      · exact hlast
      · cases hlast
    obtain ⟨place, -, rfl⟩ := Option.map_eq_some_iff.1 (Option.mem_toList.1 hclosing)
    simp [Record.bare]

/-- **A reader of everything gets to the end of what is made of items, and of nothing else.** A
reading that stops has a text exactly when it stops at a mode byte that stands for no mode, and the
text has its code. A jump is never taken for a record. -/
theorem walkStream_readable_iff (stream : ByteArray) (pc : UInt64) :
    ((walkStream stream pc .all none).stopped = none ↔ Readable pc (bytesOf stream).reverse) ∧
      (∀ n, (walkStream stream pc .all none).stopped.bind Fault.message? =
          some s!"invalid relocation mode {n}" ↔ NoModeAt pc (bytesOf stream).reverse n) ∧
      (∀ text, (walkStream stream pc .all none).stopped.bind Fault.message? = some text →
        ∃ n : Nat, text = s!"invalid relocation mode {n}") ∧
      ∀ mask age, ∀ r ∈ (walkStream stream pc mask age).records, r.mode ≠ .pcJump := by
  have hstopped : (walkStream stream pc .all none).stopped =
      (Cursor.trace .all ⟨(bytesOf stream).reverse, pc, 0, 0⟩).stopped :=
    congrArg Trace.stopped (toTrace_walkStream stream pc (by decide))
  have hending := Cursor.trace_ending ⟨(bytesOf stream).reverse, pc, 0, 0⟩
  rw [← hstopped] at hending
  refine ⟨⟨?_, ?_⟩, ?_, ?_, ?_⟩
  · intro hnone
    rw [hnone] at hending
    cases hending with
    | done h => exact h
  · intro h
    rw [hstopped]
    exact Cursor.stopped_of_readable h
  · intro n
    constructor
    · intro htext
      generalize (walkStream stream pc .all none).stopped = stopped at hending htext
      cases hending with
      | done => cases htext
      | noMode h =>
        rw [← message?_invalidMode_inj htext]
        exact h
      | breach => cases htext
    · intro h
      rw [hstopped, Cursor.stopped_of_noModeAt h]
      rfl
  · intro text htext
    generalize (walkStream stream pc .all none).stopped = stopped at hending htext
    cases hending with
    | done => cases htext
    | @noMode n h => exact ⟨n, (Option.some.inj htext).symm⟩
    | breach => cases htext
  · intro mask age r hr
    exact walkStream_mode_ne_pcJump stream pc mask age hr

end CodeReloc
