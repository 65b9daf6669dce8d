import CodeReloc.Proofs.Assembler.Attempts
import Mathlib.Order.Bounds.Basic

set_option autoImplicit false

/-!
# How far a buffer grows

Making room exchanges the buffer once, for the size that is large enough. Here the same is said one
size at a time: as long as there is less room than was asked for, the buffer is exchanged for one of
the next size, until the next size is beyond the limit (`Reserves`). What the rounds come to depends
on the sizes only (`Assembler.Decides`). A request is met by the first size that is wide enough and
allowed; a request that is refused leaves the last size that is allowed behind.

- `Assembler.exists_reserves` : the rounds end, and end as making room does;
- `Assembler.Reserves.decides` : what they end in;
- `Assembler.makeRoom_of_attemptAll` : both, after any operations.
-/

namespace CodeReloc

/-! ## Sizes -/

/-- The sizes that a buffer goes through. -/
def sizes (start : Nat) : Nat → Nat
  | 0 => start
  | k + 1 => nextSize (sizes start k)

theorem sizes_nextSize (start k : Nat) : sizes (nextSize start) k = sizes start (k + 1) := by
  induction k with
  | zero => rfl
  | succ k ih => exact congrArg nextSize ih

theorem lt_nextSize {size : Nat} (hsize : 0 < size) : size < nextSize size := by
  have hlimit : doublingLimit = 1048576 := rfl
  rw [nextSize]
  split
  · omega
  · omega

theorem sizes_pos {start : Nat} (hstart : 0 < start) (k : Nat) : 0 < sizes start k := by
  induction k with
  | zero => exact hstart
  | succ k ih => exact Nat.lt_trans ih (lt_nextSize ih)

/-- Every size is larger than the one before. -/
theorem sizes_strictMono {start : Nat} (hstart : 0 < start) : StrictMono (sizes start) :=
  strictMono_nat_of_lt_succ fun k => lt_nextSize (sizes_pos hstart k)

namespace Assembler

variable {a a' : Assembler} {n k : Nat} {answer : Except LimitExceeded Unit}

/-- **A size that meets a request**: the buffer has it already or may have it, and beside the
instructions and the stream it leaves `n` bytes and the gap. -/
def Suits (a : Assembler) (n k : Nat) : Prop :=
  n + gap ≤ sizes a.buffer.size k - a.pc - a.contents.stream.length ∧
    (k = 0 ∨ sizes a.buffer.size k ≤ a.options.maxSize)

/-- **What a request for room comes to**, and the size of the buffer afterwards. -/
inductive Decides (a : Assembler) (n : Nat) : Except LimitExceeded Unit → Nat → Prop where
  /-- The first size that meets the request. -/
  | enough {k : Nat} (hleast : IsLeast {j | a.Suits n j} k) :
    Decides a n (.ok ()) (sizes a.buffer.size k)
  /-- No size does. The first one beyond the limit is told, and the buffer has the one before. -/
  | refused {i : Nat} (hnone : ∀ k, ¬ a.Suits n k)
      (hfirst : IsLeast {j | 1 ≤ j ∧ a.options.maxSize < sizes a.buffer.size j} (i + 1)) :
    Decides a n (.error ⟨sizes a.buffer.size (i + 1), a.options.maxSize⟩)
      (sizes a.buffer.size i)

/-! ## Rounds -/

/-- The assembler with a buffer of the next size. -/
def enlarge (a : Assembler) : Assembler :=
  a.resize (a.buffer.size - a.writer.pos) (nextSize a.buffer.size)

/-- **The rounds of a request for `n` bytes.** Each begins with a look at the room there is. -/
inductive Reserves (n : Nat) : Assembler → Except LimitExceeded Unit → Assembler → Prop where
  | enough {a : Assembler} (hroom : a.HasRoom (n + gap)) : Reserves n a (.ok ()) a
  | refused {a : Assembler} (htight : ¬ a.HasRoom (n + gap))
      (hlimit : a.options.maxSize < nextSize a.buffer.size) :
    Reserves n a (.error ⟨nextSize a.buffer.size, a.options.maxSize⟩) a
  | grown {a a' : Assembler} {answer : Except LimitExceeded Unit}
      (htight : ¬ a.HasRoom (n + gap)) (hlimit : nextSize a.buffer.size ≤ a.options.maxSize)
      (hrest : Reserves n a.enlarge answer a') : Reserves n a answer a'

/-- Where there is too little room and the next size is beyond the limit, making room is refused at
once. -/
theorem makeRoom_refused (ha : a.Fits) (htight : ¬ a.HasRoom (n + gap))
    (hlimit : a.options.maxSize < nextSize a.buffer.size) :
    Ends (makeRoom n) a (.error ⟨nextSize a.buffer.size, a.options.maxSize⟩) a := by
  have hpc := ha.pc_le
  have hpos := ha.pos_le
  have hshort : ¬ a.pc + (n + gap) ≤ a.writer.pos := htight
  have hgrown : grownSize a.options.maxSize (a.pc + (a.buffer.size - a.writer.pos) + n + gap)
      a.buffer.size = (a.buffer.size, some ⟨nextSize a.buffer.size, a.options.maxSize⟩) := by
    rw [grownSize, if_neg (by omega), if_neg (fun hgrows => Nat.not_le_of_lt hlimit hgrows.2)]
  rw [Ends, makeRoom_eq ha, if_pos (by omega), hgrown]
  dsimp only
  rw [if_neg (not_not_intro rfl)]
  rfl

section

variable (ha : a.Fits) (hsize : 0 < a.buffer.size)

include ha hsize

theorem Fits.enlarge : a.enlarge.Fits := fits_resize ha (Nat.le_of_lt (lt_nextSize hsize))

theorem size_enlarge : a.enlarge.buffer.size = nextSize a.buffer.size :=
  size_resize ha (Nat.le_of_lt (lt_nextSize hsize))

/-- **A round changes nothing of what is held.** The stream is moved to the end of the new
buffer. -/
theorem contents_enlarge : a.enlarge.contents = a.contents :=
  contents_resize ha (Nat.le_of_lt (lt_nextSize hsize))

/-- The stream is as long as before. -/
theorem stream_enlarge :
    a.enlarge.buffer.size - a.enlarge.writer.pos = a.buffer.size - a.writer.pos := by
  rw [← length_stream, contents_enlarge ha hsize, length_stream]

/-- Where the next size is allowed, making room goes on with it. -/
theorem makeRoom_enlarge (htight : ¬ a.HasRoom (n + gap))
    (hlimit : nextSize a.buffer.size ≤ a.options.maxSize) :
    makeRoom n a = makeRoom n a.enlarge := by
  have hpc := ha.pc_le
  have hpos := ha.pos_le
  have hpos' := (ha.enlarge hsize).pos_le
  have hshort : ¬ a.pc + (n + gap) ≤ a.writer.pos := htight
  have hlt := lt_nextSize hsize
  have hnext := size_enlarge ha hsize
  have hstream := stream_enlarge ha hsize
  have hpc' : a.enlarge.pc = a.pc := rfl
  have hoptions' : a.enlarge.options = a.options := rfl
  -- as much is needed before the round as after it
  obtain ⟨needed, hneeded⟩ : ∃ needed,
      a.pc + (a.buffer.size - a.writer.pos) + n + gap = needed := ⟨_, rfl⟩
  have hgrown : grownSize a.options.maxSize needed a.buffer.size =
      grownSize a.options.maxSize needed a.enlarge.buffer.size := by
    rw [grownSize, if_neg (by omega), if_pos ⟨hlt, hlimit⟩, hnext]
  rw [makeRoom_eq ha, makeRoom_eq (ha.enlarge hsize), hstream, hpc', hoptions', hneeded,
    if_pos (by omega), hgrown]
  by_cases hroom : a.enlarge.writer.pos - a.pc < n + gap
  · rw [if_pos hroom]
    have hle := le_grownSize a.options.maxSize needed a.enlarge.buffer.size
    generalize grownSize a.options.maxSize needed a.enlarge.buffer.size = grown at hle
    obtain ⟨size, exceeded⟩ := grown
    change a.enlarge.buffer.size ≤ size at hle
    dsimp only
    rw [if_pos (by omega)]
    split
    · rw [enlarge, resize_resize ha (Nat.le_of_lt hlt)]
    · rename_i hsame
      rw [ne_eq, Decidable.not_not] at hsame
      rw [hsame, hnext]
      rfl
  · -- the next size is wide enough already
    have hends : grownSize a.options.maxSize needed a.enlarge.buffer.size =
        (a.enlarge.buffer.size, none) := by
      rw [grownSize, if_pos (by omega)]
    rw [if_neg hroom, hends]
    dsimp only
    rw [if_pos (by omega), hnext]
    rfl

end

/-- **The rounds end, and they end as making room does.** -/
theorem exists_reserves (ha : a.Fits) (hsize : 0 < a.buffer.size) (n : Nat) :
    ∃ answer a', Ends (makeRoom n) a answer a' ∧ Reserves n a answer a' := by
  -- with every round there is less between the size and the limit
  induction hrest : a.options.maxSize - a.buffer.size using Nat.strong_induction_on
    generalizing a with
  | _ rest ih =>
  by_cases hroom : a.HasRoom (n + gap)
  · exact ⟨_, _, makeRoom_of_room ha hroom, .enough hroom⟩
  · by_cases hlimit : nextSize a.buffer.size ≤ a.options.maxSize
    · have hlt := lt_nextSize hsize
      have hnext := size_enlarge ha hsize
      have hless : a.enlarge.options.maxSize - a.enlarge.buffer.size < rest := by
        change a.options.maxSize - a.enlarge.buffer.size < rest
        omega
      obtain ⟨answer, a', hmake, hreserves⟩ :=
        ih _ hless (ha.enlarge hsize) (by omega) rfl
      refine ⟨answer, a', ?_, .grown hroom hlimit hreserves⟩
      rw [Ends, makeRoom_enlarge ha hsize hroom hlimit]
      exact hmake
    · have hbeyond := Nat.lt_of_not_le hlimit
      exact ⟨_, _, makeRoom_refused ha hroom hbeyond, .refused hroom hbeyond⟩

/-! ## What the rounds end in -/

theorem suits_zero_iff (ha : a.Fits) : a.Suits n 0 ↔ a.HasRoom (n + gap) := by
  have hpc := ha.pc_le
  have hpos := ha.pos_le
  rw [Suits, HasRoom, length_stream, sizes]
  omega

/-- The sizes from the next one on. -/
theorem suits_enlarge_iff (ha : a.Fits) (hsize : 0 < a.buffer.size)
    (hlimit : nextSize a.buffer.size ≤ a.options.maxSize) :
    a.enlarge.Suits n k ↔ a.Suits n (k + 1) := by
  have hallowed : k = 0 ∨ sizes a.buffer.size (k + 1) ≤ a.options.maxSize ↔
      k + 1 = 0 ∨ sizes a.buffer.size (k + 1) ≤ a.options.maxSize := by
    cases k with
    | zero => exact ⟨fun _ => Or.inr hlimit, fun _ => Or.inl rfl⟩
    | succ k => simp only [Nat.add_one_ne_zero, false_or]
  rw [Suits, Suits, size_enlarge ha hsize, sizes_nextSize, contents_enlarge ha hsize, ← hallowed]
  rfl

/-- What is first from the next number on is first, if zero is not. -/
theorem isLeast_succ {P : Nat → Prop} (hzero : ¬ P 0) (h : IsLeast {j | P (j + 1)} k) :
    IsLeast {j | P j} (k + 1) := by
  refine ⟨h.1, ?_⟩
  intro j hj
  cases j with
  | zero => exact absurd hj hzero
  | succ j => exact Nat.succ_le_succ (h.2 hj)

/-- What is decided from the next size on is decided. -/
theorem Decides.of_enlarge (ha : a.Fits) (hsize : 0 < a.buffer.size)
    (htight : ¬ a.HasRoom (n + gap)) (hlimit : nextSize a.buffer.size ≤ a.options.maxSize)
    {size : Nat} (h : a.enlarge.Decides n answer size) : a.Decides n answer size := by
  have hsizes : ∀ k, sizes a.enlarge.buffer.size k = sizes a.buffer.size (k + 1) := by
    intro k
    rw [size_enlarge ha hsize, sizes_nextSize]
  have hzero : ¬ a.Suits n 0 := by
    rw [suits_zero_iff ha]
    exact htight
  cases h with
  | @enough k hleast =>
    have hsuits : {j | a.enlarge.Suits n j} = {j | a.Suits n (j + 1)} :=
      Set.ext fun _ => suits_enlarge_iff ha hsize hlimit
    rw [hsuits] at hleast
    rw [hsizes]
    exact .enough (isLeast_succ hzero hleast)
  | @refused i hnone hfirst =>
    -- the next size is allowed, so the first one beyond the limit comes after it
    have hbeyond : {j | 1 ≤ j ∧ a.enlarge.options.maxSize < sizes a.enlarge.buffer.size j} =
        {j | 1 ≤ j + 1 ∧ a.options.maxSize < sizes a.buffer.size (j + 1)} := by
      ext j
      rw [Set.mem_ofPred_eq, Set.mem_ofPred_eq, hsizes]
      cases j with
      | zero =>
        constructor
        · rintro ⟨hnot, -⟩
          cases hnot
        · rintro ⟨-, hnot⟩
          exact absurd hlimit (Nat.not_le_of_lt hnot)
      | succ j => exact and_congr_left fun _ => ⟨Nat.le_succ_of_le, fun _ => Nat.le_add_left _ _⟩
    rw [hbeyond] at hfirst
    rw [hsizes, hsizes]
    refine .refused ?_ (isLeast_succ ?_ hfirst)
    · intro j hj
      cases j with
      | zero => exact hzero hj
      | succ j => exact hnone j ((suits_enlarge_iff ha hsize hlimit).2 hj)
    · rintro ⟨hnot, -⟩
      cases hnot

/-- **What the rounds end in**: the answer and the size are decided by the sizes, and what is held
stays what it was. -/
theorem Reserves.decides (h : Reserves n a answer a') (ha : a.Fits) (hsize : 0 < a.buffer.size) :
    a.Decides n answer a'.buffer.size ∧ a'.pc = a.pc ∧ a'.contents = a.contents := by
  induction h with
  | @enough a hroom =>
    refine ⟨.enough (k := 0) ⟨(suits_zero_iff ha).2 hroom, ?_⟩, rfl, rfl⟩
    intro j _
    exact Nat.zero_le j
  | @refused a htight hlimit =>
    refine ⟨.refused (i := 0) ?_ ⟨⟨Nat.le_refl 1, hlimit⟩, fun j hj => hj.1⟩, rfl, rfl⟩
    rintro (_ | k) hsuits
    · exact htight ((suits_zero_iff ha).1 hsuits)
    · -- the sizes behind the next one are even larger
      have hallowed : sizes a.buffer.size (k + 1) ≤ a.options.maxSize := by
        rcases hsuits.2 with hzero | hallowed
        · cases hzero
        · exact hallowed
      have hle := (sizes_strictMono hsize).monotone (Nat.le_add_left 1 k)
      exact Nat.not_le_of_lt hlimit (Nat.le_trans hle hallowed)
  | @grown a a' answer htight hlimit hrest ih =>
    have hnext := size_enlarge ha hsize
    have hlt := lt_nextSize hsize
    obtain ⟨hdecides, hpc, hcontents⟩ := ih (ha.enlarge hsize) (by omega)
    refine ⟨hdecides.of_enlarge ha hsize htight hlimit, hpc, ?_⟩
    rw [hcontents, contents_enlarge ha hsize]

/-! ## After any operations -/

/-- The buffer is never smaller than at the start. -/
theorem le_size_of_attemptAll {options : AssemblerOptions} {operations : List Operation}
    {attempts : List Attempt}
    (h : Operation.attemptAll operations (.new options) = .ok (attempts, a)) :
    a.Intact ∧ max options.initialSize minimalSize ≤ a.buffer.size := by
  refine Operation.attemptAll_induction
    (P := fun _ mid => mid.Intact ∧ max options.initialSize minimalSize ≤ mid.buffer.size) [] ?_
    ⟨(Reflects.new options).intact, Nat.le_of_eq (size_copies _ 0).symm⟩ h
  rintro _ mid operation answer a' - ⟨hmid, hle⟩ hrun
  obtain ⟨-, houtcome⟩ := Operation.run_outcome hmid hrun
  obtain ⟨_, -, hcarries⟩ := houtcome.carries
  exact ⟨hcarries.intact, Nat.le_trans hle hcarries.grown.size_ge⟩

/-- Emitting bytes is answered as the request for their number is, with a buffer of the same
size. -/
theorem emit_ends (ha : a.Intact) {bytes : ByteArray}
    (h : Ends (makeRoom bytes.size) a answer a') :
    ∃ last, Ends (emit bytes) a answer last ∧ last.buffer.size = a'.buffer.size := by
  obtain ⟨hmid, -, -, hroom, -⟩ := ha.makeRoom_inv h
  cases answer with
  | error e => exact ⟨a', ends_bind.2 (Or.inr ⟨e, h, rfl⟩), rfl⟩
  | ok _ =>
    have hfree : a'.HasRoom bytes.size := Nat.le_trans (by omega) (hroom rfl)
    obtain ⟨happend, -, -⟩ := appendBytes_gives hmid.toFits hfree
    refine ⟨_, ends_bind.2 (Or.inl ⟨(), a', h, happend⟩), ?_⟩
    exact size_overlay (Nat.le_trans hfree hmid.pos_le)

/-- **A request for room after any operations.** The buffer is exchanged one size at a time, which
ends. The request is met exactly if one of the sizes meets it, and then by the first that does; if
it is refused, the first size beyond the limit is told and the buffer has the one before. Either way
instructions, stream and what the writer holds back stay what they were. -/
theorem makeRoom_of_attemptAll {options : AssemblerOptions} {operations : List Operation}
    {attempts : List Attempt} {a : Assembler}
    (h : Operation.attemptAll operations (.new options) = .ok (attempts, a)) (n : Nat) :
    ∃ answer a', Ends (makeRoom n) a answer a' ∧ Reserves n a answer a' ∧
      a.Decides n answer a'.buffer.size ∧ a'.pc = a.pc ∧ a'.contents = a.contents ∧
      ∀ bytes : ByteArray, bytes.size = n →
        ∃ last, Ends (emit bytes) a answer last ∧ last.buffer.size = a'.buffer.size := by
  obtain ⟨hintact, hle⟩ := le_size_of_attemptAll h
  have hsize : 0 < a.buffer.size := by
    have hminimal : minimalSize = 4096 := rfl
    omega
  obtain ⟨answer, a', hmake, hreserves⟩ := exists_reserves hintact.toFits hsize n
  obtain ⟨hdecides, hpc, hcontents⟩ := hreserves.decides hintact.toFits hsize
  refine ⟨answer, a', hmake, hreserves, hdecides, hpc, hcontents, ?_⟩
  rintro bytes rfl
  exact emit_ends hintact hmake

/-- A request that is refused after the buffer has doubled twice. -/
theorem makeRoom_of_attemptAll_refused :
    ∃ attempts a a',
      Operation.attemptAll [.emit [7].toByteArray] (.new ⟨5000, 20000, false, false, false⟩) =
        .ok (attempts, a) ∧
      Ends (makeRoom 25000) a (.error ⟨40000, 20000⟩) a' ∧ a.buffer.size = 5000 ∧
      a'.buffer.size = 20000 ∧ a'.pc = 1 ∧ a'.contents = a.contents := by
  have hlength : [7].toByteArray.size = 1 := by decide
  have hstart : max 5000 minimalSize = 5000 := by decide
  obtain ⟨a, hemit, -, hpc, hsize, hholds⟩ :=
    emit_new_of_room ⟨5000, 20000, false, false, false⟩ hlength hstart (by decide)
  have hmax : a.options.maxSize = 20000 :=
    congrArg (fun c : Contents => c.options.maxSize) hholds
  have hrun : Operation.attemptAll [.emit [7].toByteArray]
      (.new ⟨5000, 20000, false, false, false⟩) =
        .ok ([⟨0, .emit [7].toByteArray, .ok ()⟩], a) :=
    Operation.attemptAll_cons_eq_ok.2 ⟨.ok (), a, [], hemit, rfl, rfl⟩
  obtain ⟨answer, a', hmake, -, hdecides, hpc', hcontents, -⟩ := makeRoom_of_attemptAll hrun 25000
  refine ⟨_, a, a', hrun, ?_⟩
  rw [hpc', hpc]
  generalize a'.buffer.size = size at hdecides ⊢
  cases hdecides with
  | @enough k hleast =>
    -- no size up to the limit is wide enough
    obtain ⟨hwide, hallowed⟩ := hleast.1
    have hgap : gap = 32 := rfl
    rw [hsize] at hwide hallowed
    rw [hmax] at hallowed
    rcases hallowed with rfl | hallowed
    · rw [sizes] at hwide
      omega
    · omega
  | @refused i hnone hfirst =>
    rw [hsize, hmax] at hfirst hmake
    rw [hsize]
    have hthird : 1 ≤ 3 ∧ 20000 < sizes 5000 3 := by decide
    have hle := hfirst.2 hthird
    have hbeyond := hfirst.1.2
    -- neither of the two sizes in between is beyond the limit
    have hi : i = 2 := by
      match i, hle, hbeyond with
      | 0, _, hbeyond => exact absurd hbeyond (by decide)
      | 1, _, hbeyond => exact absurd hbeyond (by decide)
      | 2, _, _ => rfl
    subst hi
    exact ⟨hmake, rfl, rfl, rfl, hcontents⟩

end Assembler

end CodeReloc
