import CodeReloc.Proofs.ConstantPool.Loads
import CodeReloc.Proofs.Ranges
import CodeReloc.Proofs.Stream.Adding

set_option autoImplicit false

/-!
# Collecting constants

Whether a load is regular is settled when its constant is added, from two counters and long before
the layout exists. The counters answer exactly whether one more slot keeps the regular slots of both
types within reach (`ConstantPool.hasRoomFor_eq`), so the announced accesses stay true while the
slots of both types are mixed in any order (`Capacity`).

Main statement: `ConstantPool.Collected.addAll`. Additions never fault, and end in a pool that holds
the history of both types.
-/

namespace CodeReloc

/-! ## The reach of regular loads -/

theorem reaches_eq {offset bits : Nat} (hbits : 0 < bits ∧ bits < 64) (hoffset : offset < 2 ^ 64) :
    ConstantPool.reaches offset bits = .ok (decide (offset < span bits)) := by
  have hspan := span_lt bits
  rw [ConstantPool.reaches, Wire.testUnsigned_eq hbits]
  apply congrArg Except.ok
  rw [decide_eq_decide]
  by_cases hlow : offset < 2 ^ 63
  · rw [Int64.toInt_ofNat_of_lt hlow]
    omega
  · -- an offset of 64 bits is negative as a word
    have hnegative : (Int64.ofNat offset).toInt = (offset : Int) - 2 ^ 64 := by
      have hsize : ((Int64.size : Nat) : Int) = 18446744073709551616 := rfl
      rw [Int64.toInt_ofNat', Int.bmod_def, hsize]
      omega
    omega

/-- **The regular slots of both types are within reach.** Doubles lie in front of pointers, so the
last pointer is as far away as there are slots of both types. -/
def Capacity (reach count : EntryType → Nat) : Prop :=
  8 * count .double < span (reach .double) + 8 ∧
    (count .intPtr = 0 ∨ 8 * (count .intPtr + count .double) < span (reach .intPtr) + 8)

instance (reach count : EntryType → Nat) : Decidable (Capacity reach count) :=
  inferInstanceAs (Decidable (_ ∧ _))

namespace ConstantPool

/-- The regular slots of each type. -/
def counts (p : ConstantPool) (type : EntryType) : Nat := (p.part type).regularCount

theorem part_withPart (p : ConstantPool) (type other : EntryType) (s : PoolSection) :
    (p.withPart type s).part other = if other = type then s else p.part other := by
  cases type <;> cases other <;> rfl

variable {reach : EntryType → Nat} {p : ConstantPool} {history : List Load}

/-- The counters after an addition. -/
theorem counts_withPart {c : Constant} {s : PoolSection} {l : Load}
    (hadds : (p.part c.type).Adds c s l) :
    (p.withPart c.type s).counts = fun other => p.counts other +
      if other = c.type then (if l.access == .regular && !l.merged then 1 else 0) else 0 := by
  funext other
  rw [counts, part_withPart]
  split
  · rename_i hother
    rw [hadds.count_eq, counts, hother]
  · rfl

/-- **The counters answer exactly whether one more slot stays within reach.** -/
theorem hasRoomFor_eq (hreach : ∀ type, 0 < reach type ∧ reach type < 64)
    (hpart : ∀ type, (p.part type).reach = reach type) (hcapacity : Capacity reach p.counts)
    (type : EntryType) :
    p.hasRoomFor type = .ok (decide
      (Capacity reach fun other => p.counts other + if other = type then 1 else 0)) := by
  obtain ⟨hdoubles, hpointers⟩ := hcapacity
  have hdouble : p.doubles.reach = reach .double := hpart .double
  have hpointer : p.intPtrs.reach = reach .intPtr := hpart .intPtr
  have hdoubleSize : EntryType.double.size = 8 := rfl
  have hpointerSize : EntryType.intPtr.size = 8 := rfl
  have hdoubleSpan := span_lt (reach .double)
  have hpointerSpan := span_lt (reach .intPtr)
  change 8 * p.doubles.regularCount < _ at hdoubles
  change p.intPtrs.regularCount = 0 ∨
    8 * (p.intPtrs.regularCount + p.doubles.regularCount) < _ at hpointers
  cases type with
  | double =>
    have hgoal : (Capacity reach fun other => p.counts other + if other = .double then 1 else 0) ↔
        8 * (p.doubles.regularCount + 1) < span (reach .double) + 8 ∧
          (p.intPtrs.regularCount = 0 ∨
            8 * (p.intPtrs.regularCount + (p.doubles.regularCount + 1)) <
              span (reach .intPtr) + 8) := Iff.rfl
    rw [hasRoomFor, hdouble, hpointer, hdoubleSize, hpointerSize,
      reaches_eq (hreach .double) (by omega)]
    change (if decide (_ < _) = true then _ else _) = _
    by_cases hfront : p.doubles.regularCount * 8 < span (reach .double)
    · rw [if_pos (decide_eq_true hfront)]
      by_cases hnone : p.intPtrs.regularCount = 0
      · rw [if_pos hnone]
        exact congrArg Except.ok (decide_eq_true (hgoal.2 (by omega))).symm
      · -- one more double moves every pointer, so the last of them is looked at
        rw [if_neg hnone, reaches_eq (hreach .intPtr) (by omega)]
        refine congrArg Except.ok (decide_eq_decide.2 ?_)
        rw [hgoal]
        omega
    · have hbehind : ¬ Capacity reach fun other =>
          p.counts other + if other = .double then 1 else 0 := by
        rw [hgoal]
        omega
      rw [decide_eq_false hfront, decide_eq_false hbehind]
      rfl
  | intPtr =>
    have hgoal : (Capacity reach fun other => p.counts other + if other = .intPtr then 1 else 0) ↔
        8 * p.doubles.regularCount < span (reach .double) + 8 ∧
          (p.intPtrs.regularCount + 1 = 0 ∨
            8 * (p.intPtrs.regularCount + 1 + p.doubles.regularCount) <
              span (reach .intPtr) + 8) := Iff.rfl
    rw [hasRoomFor, hpointer, hdoubleSize, hpointerSize, reaches_eq (hreach .intPtr) (by omega)]
    refine congrArg Except.ok (decide_eq_decide.2 ?_)
    rw [hgoal]
    omega

/-- **How a constant that is not merged will be reached**: regular exactly as long as none of its
type has overflowed and one more regular slot stays within reach. -/
theorem freshAccess_spec (hreach : ∀ type, 0 < reach type ∧ reach type < 64)
    (hpart : ∀ type, (p.part type).reach = reach type) (hcapacity : Capacity reach p.counts)
    (type : EntryType) :
    ∃ access, p.freshAccess type = .ok access ∧
      (access = .regular ↔ (p.part type).overflows = false ∧
        Capacity reach fun other => p.counts other + if other = type then 1 else 0) := by
  rw [freshAccess]
  cases hoverflows : (p.part type).overflows with
  | true =>
    refine ⟨.overflowed, rfl, ?_⟩
    constructor
    · intro haccess
      cases haccess
    · rintro ⟨hopen, -⟩
      cases hopen
  | false =>
    rw [if_neg Bool.false_ne_true, hasRoomFor_eq hreach hpart hcapacity]
    by_cases hroom : Capacity reach fun other => p.counts other + if other = type then 1 else 0
    · rw [decide_eq_true hroom]
      exact ⟨.regular, rfl, fun _ => ⟨rfl, hroom⟩, fun _ => rfl⟩
    · rw [decide_eq_false hroom]
      refine ⟨.overflowed, rfl, ?_⟩
      constructor
      · intro haccess
        cases haccess
      · rintro ⟨-, hcapacity'⟩
        exact absurd hcapacity' hroom

/-- What adding a constant comes to, as long as the pool is no part of the code: a constant that is
merged is regular, and any other one is reached as a fresh one would be. -/
theorem add_eq (hopen : p.emittedAt = none) (c : Constant) {fresh access : Access}
    (hcounted : (p.part c.type).shared.size ≤ (p.part c.type).regularCount)
    (hfresh : p.freshAccess c.type = .ok fresh)
    (hmerged : ((p.part c.type).settle c).isMerged = true → access = .regular)
    (hunmerged : ((p.part c.type).settle c).isMerged = false → access = fresh) :
    p.add c.entry c.type = .ok (access,
      p.withPart c.type ((p.part c.type).insert ((p.part c.type).settle c) access)) := by
  have hemitted : (!p.isEmitted) = true := by
    rw [isEmitted, hopen]
    rfl
  have hslot : (((p.part c.type).settle c).slot.all (· < (p.part c.type).regularCount)) = true := by
    cases hfound : ((p.part c.type).settle c).slot with
    | none => rfl
    | some slot =>
      have hlt := (p.part c.type).settle_lt c hfound
      exact decide_eq_true (Nat.lt_of_lt_of_le hlt hcounted)
  refine require_bind_eq_ok.2 ⟨hemitted, require_bind_eq_ok.2 ⟨hslot, ?_⟩⟩
  change (if ((p.part c.type).settle c).isMerged = true then _ else _) = _
  split
  · rename_i hsettle
    rw [hmerged hsettle]
    rfl
  · rename_i hsettle
    rw [hunmerged (Bool.eq_false_iff.2 hsettle)]
    exact bind_eq_ok.2 ⟨fresh, hfresh, rfl⟩

/-! ## A pool with its history -/

/-- Constants one after the other. Answers how each is reached. -/
def addAll (p : ConstantPool) : List Constant → Except Fault (List Access × ConstantPool)
  | [] => .ok ([], p)
  | c :: rest => do
    let (access, p) ← p.add c.entry c.type
    let (accesses, p) ← p.addAll rest
    return (access :: accesses, p)

/-- **A run of additions.** What every addition keeps of a pool and the loads announced so far, all
of them keep. -/
theorem addAll_induction {motive : ConstantPool → List Load → Prop}
    (hstep : ∀ p history c, motive p history → ∃ l p', p.add c.entry c.type = .ok (l.access, p') ∧
      l.constant = c ∧ motive p' (history ++ [l]))
    {p : ConstantPool} {history : List Load} (h : motive p history) (constants : List Constant) :
    ∃ more p', p.addAll constants = .ok (more.map Load.access, p') ∧
      more.map Load.constant = constants ∧ motive p' (history ++ more) := by
  induction constants generalizing p history with
  | nil =>
    refine ⟨[], p, rfl, rfl, ?_⟩
    rw [List.append_nil]
    exact h
  | cons c rest ih =>
    obtain ⟨l, mid, hadd, hconstant, hmid⟩ := hstep p history c h
    obtain ⟨more, p', hrest, hconstants, hlast⟩ := ih hmid
    refine ⟨l :: more, p', ?_, ?_, ?_⟩
    · exact bind_eq_ok.2 ⟨_, hadd, bind_eq_ok.2 ⟨_, hrest, rfl⟩⟩
    · rw [List.map_cons, hconstant, hconstants]
    · rw [List.append_cons]
      exact hlast

/-- **A pool that has collected constants.** It is no part of the code yet, both sections hold
their share of the history, and the regular slots are within reach. -/
structure Collected (reach : EntryType → Nat) (p : ConstantPool) (history : List Load) : Prop where
  emittedAt_eq : p.emittedAt = none
  reach_eq : ∀ type, (p.part type).reach = reach type
  holds : ∀ type, (p.part type).Holds type (history.filter fun l => l.constant.type == type)
  capacity : Capacity reach p.counts

namespace Collected

theorem new (reach : EntryType → Nat) :
    Collected reach (.new (reach .intPtr) (reach .double)) [] where
  emittedAt_eq := rfl
  reach_eq := by
    intro type
    cases type <;> rfl
  holds := by
    intro type
    cases type
    · exact .nil _
    · exact .nil _
  capacity := by
    refine ⟨?_, Or.inl rfl⟩
    change 0 < _
    omega

/-- The section of one type takes one more load. If the load is given a regular slot, there has to
be room for it. -/
theorem join (h : Collected reach p history) {c : Constant} {s : PoolSection} {l : Load}
    (hadds : (p.part c.type).Adds c s l)
    (hroom : l.access = .regular → l.merged = false →
      Capacity reach fun other => p.counts other + if other = c.type then 1 else 0) :
    Collected reach (p.withPart c.type s) (history ++ [l]) where
  emittedAt_eq := by
    rw [← h.emittedAt_eq]
    cases c.type <;> rfl
  reach_eq := by
    intro type
    rw [part_withPart]
    split
    · rename_i htype
      rw [hadds.reach_eq, ← htype]
      exact h.reach_eq type
    · exact h.reach_eq type
  holds := by
    intro type
    rw [part_withPart, List.filter_append]
    by_cases htype : type = c.type
    · have hjoins : [l].filter (fun l => l.constant.type == type) = [l] := by
        apply List.filter_cons_of_pos
        rw [hadds.constant_eq, htype, beq_self_eq_true]
      rw [if_pos htype, hjoins, htype]
      exact (h.holds c.type).add hadds rfl
    · -- the load of another type does not show in the history of this one
      have hstays : [l].filter (fun l => l.constant.type == type) = [] := by
        apply List.filter_cons_of_neg
        rw [hadds.constant_eq, beq_iff_eq]
        exact Ne.symm htype
      rw [if_neg htype, hstays, List.append_nil]
      exact h.holds type
  capacity := by
    rw [counts_withPart hadds]
    cases hregular : l.access == .regular && !l.merged with
    | true =>
      obtain ⟨haccess, hmerged⟩ := Bool.and_eq_true_iff.1 hregular
      exact hroom (beq_iff_eq.1 haccess) ((Bool.not_eq_true' _).mp hmerged)
    | false =>
      -- no slot was given out, and the counters stand as they stood
      have hsame : (fun other => p.counts other +
          if other = c.type then (if false = true then 1 else 0) else 0) = p.counts := by
        funext other
        split
        · rfl
        · rfl
      rw [hsame]
      exact h.capacity

/-- **A constant that is added gets an access, and its load joins the history.** It is regular
exactly if it is merged, or if none of its type has overflowed and there is room for one more. -/
theorem adds (h : Collected reach p history) (hreach : ∀ type, 0 < reach type ∧ reach type < 64)
    (c : Constant) :
    ∃ l s, p.add c.entry c.type = .ok (l.access, p.withPart c.type s) ∧
      (p.part c.type).Adds c s l ∧ l.merged = ((p.part c.type).settle c).isMerged ∧
      (l.access = .regular ↔ l.merged = true ∨ (p.part c.type).overflows = false ∧
        Capacity reach fun other => p.counts other + if other = c.type then 1 else 0) ∧
      Collected reach (p.withPart c.type s) (history ++ [l]) := by
  obtain ⟨fresh, hfresh, hregular⟩ := freshAccess_spec hreach h.reach_eq h.capacity c.type
  -- a merged constant is regular and asks for no room
  have hchosen : ∃ access, (((p.part c.type).settle c).isMerged = true → access = .regular) ∧
      (((p.part c.type).settle c).isMerged = false → access = fresh) := by
    cases ((p.part c.type).settle c).isMerged with
    | true => exact ⟨.regular, fun _ => rfl, fun hfalse => absurd hfalse.symm Bool.false_ne_true⟩
    | false => exact ⟨fresh, fun htrue => absurd htrue Bool.false_ne_true, fun _ => rfl⟩
  obtain ⟨access, hmerged, hunmerged⟩ := hchosen
  have hclosed : ((p.part c.type).settle c).isMerged = false →
      (p.part c.type).overflows = true → access = .overflowed := by
    intro hsettle hoverflows
    cases haccess : access with
    | overflowed => rfl
    | regular =>
      rw [hunmerged hsettle] at haccess
      have hopen := (hregular.1 haccess).1
      rw [hoverflows] at hopen
      cases hopen
  obtain ⟨l, hadds, haccess, hlmerged⟩ := (p.part c.type).insert_adds c hmerged hclosed
  have hadd := add_eq h.emittedAt_eq c (h.holds c.type).shared_le hfresh hmerged hunmerged
  rw [← hlmerged] at hmerged hunmerged
  refine ⟨l, (p.part c.type).insert ((p.part c.type).settle c) access, ?_, hadds, hlmerged, ?_, ?_⟩
  · rw [haccess]
    exact hadd
  · rw [haccess]
    cases hfounds : l.merged with
    | true => exact ⟨fun _ => Or.inl rfl, fun _ => hmerged hfounds⟩
    | false =>
      rw [hunmerged hfounds, hregular]
      simp only [Bool.false_eq_true, false_or]
  · refine h.join hadds ?_
    intro hlregular hfounds
    rw [haccess, hunmerged hfounds] at hlregular
    exact (hregular.1 hlregular).2

/-- **Additions never fault**, and every access that is answered is that of a load of the
history. -/
theorem addAll (h : Collected reach p history)
    (hreach : ∀ type, 0 < reach type ∧ reach type < 64) (constants : List Constant) :
    ∃ more p', p.addAll constants = .ok (more.map Load.access, p') ∧
      more.map Load.constant = constants ∧ Collected reach p' (history ++ more) := by
  refine addAll_induction ?_ h constants
  intro p history c hcollected
  obtain ⟨l, s, hadd, hadds, -, -, hjoined⟩ := hcollected.adds hreach c
  exact ⟨l, _, hadd, hadds.constant_eq, hjoined⟩

end Collected

end ConstantPool

end CodeReloc
