import CodeReloc.Proofs.Assembler.Room

set_option autoImplicit false

/-!
# The limit of a buffer

The buffer of an assembler is exchanged for a larger one when room is short, until the next size is
beyond the limit. `Grown` says what may have happened to the buffer in between two states, and
`Assembler.Stuck` what it means that a request for room has been refused: there is less room than
that, and the buffer cannot become larger.

Main statement: `Intact.makeRoom_inv`.
-/

namespace CodeReloc

/-- The next size of a buffer is larger and within the limit. -/
def CanGrow (limit size : Nat) : Prop := size < nextSize size ∧ nextSize size ≤ limit

instance (limit size : Nat) : Decidable (CanGrow limit size) :=
  inferInstanceAs (Decidable (_ ∧ _))

/-- The buffer cannot become larger. -/
def Assembler.Full (a : Assembler) : Prop := ¬ CanGrow a.options.maxSize a.buffer.size

/-- The buffer cannot become larger, and less than the gap is free beside `n` bytes. -/
structure Assembler.Stuck (a : Assembler) (n : Nat) : Prop where
  full : a.Full
  tight : ¬ a.HasRoom (n + gap)

/-- How a buffer may become larger: only up to the limit, and not at all once the next size is
beyond it. It never becomes smaller. -/
structure Grown (a a' : Assembler) : Prop where
  options_eq : a'.options = a.options
  size_ge : a.buffer.size ≤ a'.buffer.size
  limit : a'.buffer.size = a.buffer.size ∨ a'.buffer.size ≤ a.options.maxSize
  full : a.Full → a'.buffer.size = a.buffer.size

namespace Grown

theorem refl (a : Assembler) : Grown a a := ⟨rfl, Nat.le_refl _, Or.inl rfl, fun _ => rfl⟩

variable {a b c : Assembler}

/-- A buffer of the same size with the same limit. -/
theorem of_eq (hoptions : b.options = a.options) (hsize : b.buffer.size = a.buffer.size) :
    Grown a b :=
  ⟨hoptions, Nat.le_of_eq hsize.symm, Or.inl hsize, fun _ => hsize⟩

theorem full_of_full (h : Grown a b) (ha : a.Full) : b.Full := by
  rw [Assembler.Full, h.options_eq, h.full ha]
  exact ha

theorem trans (h : Grown a b) (h' : Grown b c) : Grown a c where
  options_eq := h'.options_eq.trans h.options_eq
  size_ge := Nat.le_trans h.size_ge h'.size_ge
  limit := by
    rcases h'.limit with hsame | hlimit
    · rw [hsame]
      exact h.limit
    · rw [h.options_eq] at hlimit
      exact Or.inr hlimit
  full := fun ha => (h'.full (h.full_of_full ha)).trans (h.full ha)

/-- No buffer becomes larger than a bound on its size and its limit. -/
theorem size_le (h : Grown a b) {bound : Nat} (hlimit : a.options.maxSize ≤ bound)
    (ha : a.buffer.size ≤ bound) : b.buffer.size ≤ bound := by
  rcases h.limit with hsame | hle
  · rw [hsame]
    exact ha
  · exact Nat.le_trans hle hlimit

end Grown

/-- What growing comes to. A request that exceeds the limit is not met by the size that was reached,
and there is no next one. -/
theorem grownSize_inv {limit needed size grown : Nat} {exceeded : Option LimitExceeded}
    (h : grownSize limit needed size = (grown, exceeded)) :
    (grown = size ∨ size < grown ∧ grown ≤ limit) ∧ (¬ CanGrow limit size → grown = size) ∧
      ∀ e, exceeded = some e → grown < needed ∧ ¬ CanGrow limit grown := by
  fun_induction grownSize limit needed size with
  | case1 size hfits =>
    cases h
    refine ⟨Or.inl rfl, fun _ => rfl, ?_⟩
    intro e he
    cases he
  | case2 size hsmall hgrows ih =>
    obtain ⟨hsize, -, hexceeded⟩ := ih h
    refine ⟨Or.inr ?_, fun hfull => absurd hgrows hfull, hexceeded⟩
    rcases hsize with rfl | ⟨hlt, hlimit⟩
    · exact hgrows
    · exact ⟨Nat.lt_trans hgrows.1 hlt, hlimit⟩
  | case3 size hsmall hfull =>
    cases h
    exact ⟨Or.inl rfl, fun _ => rfl, fun e _ => ⟨Nat.lt_of_not_le hsmall, hfull⟩⟩

namespace Assembler

variable {a a' : Assembler} {answer : Except LimitExceeded Unit} {n : Nat}

/-- **Making room grows the buffer within its limit**, and is refused only if that does not help. -/
theorem makeRoom_grown (ha : a.Fits) (h : makeRoom n a = .ok (answer, a')) :
    Grown a a' ∧ ∀ e, answer = .error e → a'.Stuck n := by
  have hpc := ha.pc_le
  have hpos := ha.pos_le
  rw [makeRoom_eq ha n] at h
  by_cases hsmall : a.writer.pos - a.pc < n + gap
  · rw [if_pos hsmall] at h
    rcases hgrown : grownSize a.options.maxSize (a.pc + (a.buffer.size - a.writer.pos) + n + gap)
      a.buffer.size with ⟨size, exceeded⟩
    obtain ⟨hsize, hfull, hexceeded⟩ := grownSize_inv hgrown
    rw [hgrown] at h
    obtain ⟨hanswer, hmoved⟩ := Prod.mk.inj (Except.ok.inj h)
    -- whether it was exchanged or not, the buffer has the size that was reached
    have hreached : a'.options = a.options ∧ a'.buffer.size = size ∧ a'.pc = a.pc ∧
        a'.writer.pos = size - (a.buffer.size - a.writer.pos) := by
      rw [← hmoved]
      split
      · exact ⟨rfl, size_resize ha (by omega), rfl, rfl⟩
      · rename_i hsame
        rw [ne_eq, Decidable.not_not] at hsame
        exact ⟨rfl, hsame.symm, rfl, by omega⟩
    obtain ⟨hoptions, hsize', hpc', hpos'⟩ := hreached
    constructor
    · constructor
      · exact hoptions
      · omega
      · omega
      · intro ha
        rw [hsize']
        exact hfull ha
    · intro e he
      have hsome : exceeded = some e := by
        rw [he] at hanswer
        cases exceeded with
        | none => cases hanswer
        | some _ => exact congrArg some (Except.error.inj hanswer)
      obtain ⟨hneeded, hlast⟩ := hexceeded e hsome
      constructor
      · rw [Full, hoptions, hsize']
        exact hlast
      · rw [HasRoom, hpc', hpos']
        omega
  · rw [if_neg hsmall] at h
    cases h
    exact ⟨.refl a, fun e he => nomatch he⟩

theorem length_stream (a : Assembler) :
    a.contents.stream.length = a.buffer.size - a.writer.pos := by
  rw [contents, List.length_reverse, List.length_drop, length_bytesOf]

/-- The buffer holds the instructions, the stream and the free bytes between them. -/
theorem Fits.hasRoom_iff (ha : a.Fits) :
    a.HasRoom n ↔ a.contents.code.length + a.contents.stream.length + n ≤ a.buffer.size := by
  have hpos := ha.pos_le
  rw [HasRoom, ha.length_code, length_stream]
  omega

/-- Laying bytes over instructions does not change the size of the buffer. -/
theorem size_overwrite (ha : a.Fits) (offset : Nat) (bytes : ByteArray) :
    (overwrite offset bytes a).buffer.size = a.buffer.size := by
  obtain ⟨hfits, hcontents⟩ := overwrite_contents ha offset bytes
  have hpos := ha.pos_le
  have hpos' := hfits.pos_le
  -- the stream begins at the same place and is as long as before
  have hlength := length_stream (overwrite offset bytes a)
  rw [hcontents] at hlength
  change a.contents.stream.length = _ at hlength
  rw [length_stream, overwrite_writer] at hlength
  rw [overwrite_writer] at hpos'
  omega

/-- **Making room changes nothing of what is held.** It grows the buffer within its limit, and is
refused only if that does not help. -/
theorem Intact.makeRoom_inv (ha : a.Intact) (h : Ends (makeRoom n) a answer a') :
    a'.Intact ∧ Grown a a' ∧ a'.contents = a.contents ∧
      (answer = .ok () → a'.HasRoom (n + gap)) ∧ ∀ e, answer = .error e → a'.Stuck n := by
  obtain ⟨hfits, hcontents, hroom⟩ := (makeRoom_reaches ha.toFits n).of_ends h
  obtain ⟨hgrown, hstuck⟩ := makeRoom_grown ha.toFits h
  refine ⟨ha.of_contents hfits ?_, hgrown, hcontents, hroom, hstuck⟩
  rw [hcontents]

end Assembler

end CodeReloc
