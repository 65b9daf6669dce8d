import CodeReloc.Proofs.ConstantPool.Layout

set_option autoImplicit false

/-!
# Which constants are regular

Nothing but the counters of both types is looked at when a constant is added. What they answer is
said here without them: the regular slots that the constants so far call for are written down, the
doubles first and then the pointers (`regularSlots`), and a constant is regular exactly if it finds
an equal one to share a slot with, or if none of its type has overflowed and the slots together with
its own are all within reach (`Admits`).

- `withinReach_regularSlots` : the last slot of each type decides for all of them;
- `ConstantPool.Classified.add` : one addition answers as it has to;
- `ConstantPool.addAll_regular_iff` : and so does every addition of a run.
-/

namespace CodeReloc

/-! ## The slots that constants call for -/

/-- An equal constant that came earlier has a regular slot, and both may share it. -/
def Shares (earlier : List Load) (c : Constant) : Prop :=
  c.sharable = true ∧ ∃ l ∈ earlier, l.constant.sharable = true ∧ l.constant.type = c.type ∧
    l.constant.value = c.value ∧ l.access = .regular

instance (earlier : List Load) (c : Constant) : Decidable (Shares earlier c) :=
  inferInstanceAs (Decidable (_ ∧ _))

/-- The constants of a type that have a regular slot which they do not share with an earlier one.
The loads that came before are carried along. -/
def slotsFrom (type : EntryType) : List Load → List Load → List Constant
  | _, [] => []
  | earlier, l :: rest =>
    (if l.constant.type = type ∧ l.access = .regular ∧ ¬ Shares earlier l.constant then
      [l.constant] else []) ++ slotsFrom type (earlier ++ [l]) rest

/-- The regular slots in the order of the layout: those of doubles and then those of pointers. -/
def regularSlots (loads : List Load) : List Constant :=
  slotsFrom .double [] loads ++ slotsFrom .intPtr [] loads

/-- Slots of eight bytes that all lie within the reach of their type. -/
def WithinReach (reach : EntryType → Nat) (slots : List Constant) : Prop :=
  ∀ i c, slots[i]? = some c → 8 * i < 2 ^ reach c.type

/-- **Whether a load may be regular.** It shares a slot, or none of its type has overflowed and the
slots that are there with its own are within reach. -/
def Admits (reach : EntryType → Nat) (earlier : List Load) (l : Load) : Prop :=
  Shares earlier l.constant ∨
    (∀ other ∈ earlier, other.constant.type = l.constant.type → other.access = .regular) ∧
      WithinReach reach (regularSlots (earlier ++ [{ l with access := .regular }]))

theorem slotsFrom_append (type : EntryType) (earlier loads more : List Load) :
    slotsFrom type earlier (loads ++ more) =
      slotsFrom type earlier loads ++ slotsFrom type (earlier ++ loads) more := by
  induction loads generalizing earlier with
  | nil => rw [slotsFrom, List.append_nil, List.nil_append, List.nil_append]
  | cons l rest ih =>
    rw [List.cons_append, slotsFrom, slotsFrom, ih, List.append_cons earlier l rest,
      ← List.append_assoc]

/-- One more load takes one more slot, unless it overflows or shares one. -/
theorem length_slotsFrom_snoc (type : EntryType) (earlier : List Load) (l : Load) :
    (slotsFrom type [] (earlier ++ [l])).length = (slotsFrom type [] earlier).length +
      if l.constant.type = type ∧ l.access = .regular ∧ ¬ Shares earlier l.constant then 1
      else 0 := by
  rw [slotsFrom_append, List.length_append, List.nil_append, slotsFrom, slotsFrom, List.append_nil]
  split
  · rfl
  · rfl

theorem type_of_mem_slotsFrom {type : EntryType} {earlier loads : List Load} {c : Constant}
    (hc : c ∈ slotsFrom type earlier loads) : c.type = type := by
  induction loads generalizing earlier with
  | nil => cases hc
  | cons l rest ih =>
    rcases List.mem_append.1 hc with hc | hc
    · split at hc
      · rename_i hslot
        rw [List.mem_singleton.1 hc]
        exact hslot.1
      · cases hc
    · exact ih hc

/-! ## The last slot decides -/

/-- Slots of one type are within reach, from `start` slots on, if the last of them is. -/
theorem forall_getElem?_reach_iff (reach : EntryType → Nat) {type : EntryType}
    {slots : List Constant} (htype : ∀ c ∈ slots, c.type = type) (start : Nat) :
    (∀ i c, slots[i]? = some c → 8 * (start + i) < 2 ^ reach c.type) ↔
      slots.length = 0 ∨ 8 * (slots.length + start) < 2 ^ reach type + 8 := by
  constructor
  · intro hall
    cases hlength : slots.length with
    | zero => exact Or.inl rfl
    | succ n =>
      -- the last slot is one of them
      have hlast : slots[n]? = some slots[n] := List.getElem?_eq_getElem (by omega)
      have hreach := hall n _ hlast
      rw [htype _ (List.mem_of_getElem? hlast)] at hreach
      omega
  · -- every other slot lies in front of the last one
    intro hlast i c hi
    obtain ⟨hlt, -⟩ := List.getElem?_eq_some_iff.1 hi
    rw [htype c (List.mem_of_getElem? hi)]
    omega

variable {reach : EntryType → Nat}

theorem withinReach_append_iff (front back : List Constant) :
    WithinReach reach (front ++ back) ↔ WithinReach reach front ∧
      ∀ i c, back[i]? = some c → 8 * (front.length + i) < 2 ^ reach c.type := by
  constructor
  · intro hall
    constructor
    · intro i c hi
      obtain ⟨hlt, -⟩ := List.getElem?_eq_some_iff.1 hi
      apply hall i c
      rw [List.getElem?_append_left hlt]
      exact hi
    · intro i c hi
      apply hall _ c
      rw [List.getElem?_append_right (Nat.le_add_right _ _), Nat.add_sub_cancel_left]
      exact hi
  · rintro ⟨hfront, hback⟩ i c hi
    by_cases hlt : i < front.length
    · rw [List.getElem?_append_left hlt] at hi
      exact hfront i c hi
    · rw [List.getElem?_append_right (by omega)] at hi
      have hreach := hback _ c hi
      rw [Nat.add_sub_cancel' (by omega)] at hreach
      exact hreach

/-- **Two bounds are enough.** The slots of both types are within reach exactly if the last double
and the last pointer are. -/
theorem withinReach_regularSlots (hreach : ∀ type, reach type ≤ 62) (loads : List Load) :
    WithinReach reach (regularSlots loads) ↔
      Capacity reach fun type => (slotsFrom type [] loads).length := by
  have hdoubles := forall_getElem?_reach_iff reach
    (fun c (hc : c ∈ slotsFrom .double [] loads) => type_of_mem_slotsFrom hc) 0
  have hpointers := forall_getElem?_reach_iff reach
    (fun c (hc : c ∈ slotsFrom .intPtr [] loads) => type_of_mem_slotsFrom hc)
    (slotsFrom .double [] loads).length
  have hfront : WithinReach reach (slotsFrom .double [] loads) ↔
      8 * (slotsFrom .double [] loads).length < 2 ^ reach .double + 8 := by
    have hpositive := Nat.two_pow_pos (reach .double)
    simp only [Nat.zero_add, Nat.add_zero] at hdoubles
    rw [WithinReach, hdoubles]
    omega
  rw [regularSlots, withinReach_append_iff, hfront, hpointers, Capacity, span_eq (hreach _),
    span_eq (hreach _)]

/-! ## What a pool knows of its history -/

namespace ConstantPool

variable {p : ConstantPool} {history : List Load} {l : Load}

/-- A shared slot was founded by a load that may share it. -/
theorem Collected.exists_sharer (h : Collected reach p history) {type : EntryType} {value : UInt64}
    {slot : Nat} (hslot : (p.part type).slotOf value = some slot) :
    ∃ l ∈ history, l.constant.sharable = true ∧ l.constant.type = type ∧
      l.constant.value = value ∧ l.access = .regular := by
  have hlt := PoolSection.slotOf_lt hslot
  rw [← Array.length_toList] at hlt
  obtain ⟨l, hl, -, hfounds⟩ := mem_founded_iff.1 (mem_founded_sharedLoads type hlt)
  have hmem : l ∈ history.filter fun other => other.constant.type == type := by
    apply (h.holds type).loads_perm.mem_iff.2
    exact List.mem_append_left _ (List.mem_append_left _ hl)
  refine ⟨l, (List.mem_filter.1 hmem).1, ?_⟩
  have htype := (h.holds type).type_eq l hmem
  cases (h.holds type).places l hmem with
  | shared hsharable hfound =>
    obtain ⟨-, rfl⟩ := Slot.shared.inj hfounds
    exact ⟨hsharable, htype, PoolSection.slotOf_injective hfound hslot, rfl⟩
  | own => cases hfounds

/-- A constant is merged exactly if there is an earlier one to share a slot with. -/
theorem Collected.isMerged_settle_iff (h : Collected reach p history) (c : Constant) :
    ((p.part c.type).settle c).isMerged = true ↔ Shares history c := by
  rw [PoolEntry.isMerged, Option.isSome_iff_exists]
  constructor
  · rintro ⟨slot, hslot⟩
    obtain ⟨hsharable, hfound⟩ := ((p.part c.type).settle_slot_iff c).1 hslot
    exact ⟨hsharable, h.exists_sharer hfound⟩
  · rintro ⟨hsharable, l, hl, hlsharable, htype, hvalue, haccess⟩
    rcases h.sharable_cases hl hlsharable with ⟨-, slot, hfound, -⟩ | ⟨hoverflowed, -⟩
    · rw [htype, hvalue] at hfound
      exact ⟨slot, ((p.part c.type).settle_slot_iff c).2 ⟨hsharable, hfound⟩⟩
    · rw [haccess] at hoverflowed
      cases hoverflowed

/-- **A pool whose answers so far were right.** Each type knows whether one of its loads has
overflowed, its counter is that of the slots its loads call for, and every load was admitted to a
regular slot exactly as long as it could be. -/
structure Classified (reach : EntryType → Nat) (p : ConstantPool) (history : List Load) :
    Prop where
  collected : Collected reach p history
  overflows_iff : ∀ type, (p.part type).overflows = true ↔
    ∃ l ∈ history, l.constant.type = type ∧ l.access = .overflowed
  counts_eq : p.counts = fun type => (slotsFrom type [] history).length
  admitted : ∀ before l after, history = before ++ l :: after →
    (l.access = .regular ↔ Admits reach before l)

namespace Classified

theorem new (reach : EntryType → Nat) :
    Classified reach (.new (reach .intPtr) (reach .double)) [] where
  collected := .new reach
  overflows_iff := by
    intro type
    constructor
    · intro hoverflows
      cases type <;> cases hoverflows
    · rintro ⟨l, hl, -⟩
      cases hl
  counts_eq := by
    funext type
    cases type <;> rfl
  admitted := by
    intro before l after hsplit
    exact absurd hsplit.symm (List.append_ne_nil_of_right_ne_nil _ (List.cons_ne_nil _ _))

/-- As long as a type has not overflowed, all its loads are regular. -/
theorem overflows_eq_false_iff (h : Classified reach p history) (type : EntryType) :
    (p.part type).overflows = false ↔
      ∀ other ∈ history, other.constant.type = type → other.access = .regular := by
  rw [← Bool.not_eq_true, h.overflows_iff]
  constructor
  · intro hnone other hother htype
    cases haccess : other.access with
    | regular => rfl
    | overflowed => exact absurd ⟨other, hother, htype, haccess⟩ hnone
  · rintro hall ⟨l, hl, htype, haccess⟩
    rw [hall l hl htype] at haccess
    cases haccess

/-- One more slot is within reach exactly if the counters say so. -/
theorem withinReach_snoc_iff (h : Classified reach p history) (hreach : ∀ type, reach type ≤ 62)
    (hl : l.access = .regular) (hshares : ¬ Shares history l.constant) :
    WithinReach reach (regularSlots (history ++ [l])) ↔
      Capacity reach fun other => p.counts other + if other = l.constant.type then 1 else 0 := by
  have hcounts : (fun other => (slotsFrom other [] (history ++ [l])).length) =
      fun other => p.counts other + if other = l.constant.type then 1 else 0 := by
    funext other
    rw [length_slotsFrom_snoc, h.counts_eq]
    simp only [hl, hshares, not_false_eq_true, and_self, and_true, eq_comm]
  rw [withinReach_regularSlots hreach, hcounts]

/-- **An addition answers as it has to.** -/
theorem add (h : Classified reach p history) (hreach : ∀ type, 1 ≤ reach type ∧ reach type ≤ 62)
    (c : Constant) :
    ∃ l p', p.add c.entry c.type = .ok (l.access, p') ∧ l.constant = c ∧
      Classified reach p' (history ++ [l]) := by
  have hbits : ∀ type, 0 < reach type ∧ reach type < 64 := by
    intro type
    exact ⟨(hreach type).1, Nat.lt_of_le_of_lt (hreach type).2 (by decide)⟩
  obtain ⟨l, s, hadd, hadds, hmerged, hregular, hjoined⟩ := h.collected.adds hbits c
  have hconstant := hadds.constant_eq
  have hshares : l.merged = true ↔ Shares history l.constant := by
    rw [hmerged, hconstant]
    exact h.collected.isMerged_settle_iff c
  refine ⟨l, _, hadd, hconstant, hjoined, ?_, ?_, ?_⟩
  · intro type
    have hlast : (∃ l' ∈ history ++ [l], l'.constant.type = type ∧ l'.access = .overflowed) ↔
        (∃ l' ∈ history, l'.constant.type = type ∧ l'.access = .overflowed) ∨
          c.type = type ∧ l.access = .overflowed := by
      simp only [List.mem_append, List.mem_singleton, or_and_right, exists_or, exists_eq_left,
        hconstant]
    rw [part_withPart, hlast, ← h.overflows_iff]
    split
    · rename_i htype
      rw [hadds.overflows_iff, htype]
      simp only [true_and]
    · rename_i htype
      simp only [Ne.symm htype, false_and, or_false]
  · -- the counter moves exactly when the load calls for a slot
    funext type
    have hslot : (l.access == .regular && !l.merged) = true ↔
        l.access = .regular ∧ ¬ Shares history l.constant := by
      rw [Bool.and_eq_true, beq_iff_eq, Bool.not_eq_true', ← Bool.not_eq_true, hshares]
    rw [counts_withPart hadds, h.counts_eq, length_slotsFrom_snoc]
    simp only [hslot, ← hconstant, ite_and, eq_comm]
  · intro before l' after hsplit
    rcases after.eq_nil_or_concat with rfl | ⟨after, last, rfl⟩
    · -- the load that has just been added
      obtain ⟨rfl, hlast⟩ := List.append_inj' hsplit rfl
      cases hlast
      rw [hregular, hshares, Admits]
      by_cases hshared : Shares history l.constant
      · simp only [hshared, true_or]
      · -- it would have a slot of its own, and that is what the counters were asked about
        have hroom := h.withinReach_snoc_iff (l := { l with access := .regular })
          (fun type => (hreach type).2) rfl hshared
        rw [h.overflows_eq_false_iff, hroom, hconstant]
    · -- an earlier load, and what came before it is the same
      rw [List.concat_eq_append, ← List.cons_append, ← List.append_assoc] at hsplit
      obtain ⟨rfl, -⟩ := List.append_inj' hsplit rfl
      exact h.admitted before l' after rfl

end Classified

/-- **A constant is regular exactly if it can be.** Constants of both types can be added in any
order. Each of them is announced as regular if it shares a slot with an earlier one, or if none of
its type has overflowed before it and the layout with its slot keeps every regular slot within
reach; any other one overflows. What comes later does not move a regular slot out of reach. -/
theorem addAll_regular_iff (reach : EntryType → Nat)
    (hreach : ∀ type, 1 ≤ reach type ∧ reach type ≤ 62) (constants : List Constant) :
    ∃ (history : List Load) (pool : ConstantPool),
      (ConstantPool.new (reach .intPtr) (reach .double)).addAll constants =
          .ok (history.map Load.access, pool) ∧
        history.map Load.constant = constants ∧ history.Perm pool.loads ∧
        (∀ before l after, history = before ++ l :: after →
          (l.access = .regular ↔ Admits reach before l)) ∧
        ∀ l ∈ history, l.access = .regular →
          pool.offsetOf l.slot < 2 ^ reach l.constant.type := by
  obtain ⟨history, pool, hadd, hconstants, hclassified⟩ := addAll_induction
    (motive := Classified reach) (fun _ _ c h => h.add hreach c) (.new reach) constants
  refine ⟨history, pool, hadd, hconstants, hclassified.collected.loads_perm,
    hclassified.admitted, ?_⟩
  intro l hl hregular
  exact Nat.lt_of_lt_of_le (hclassified.collected.offsetOf_lt hl hregular) (span_le _)

/-- Two pointers use up their reach. A double would come in front of them, so it overflows although
it is the first one, and an equal pointer still finds its slot. -/
theorem addAll_regular_iff_pushed :
    ∃ history pool,
      (ConstantPool.new 4 4).addAll
          [⟨0, 7, true, .intPtr⟩, ⟨4, 9, false, .intPtr⟩, ⟨8, 5, true, .double⟩,
            ⟨12, 7, true, .intPtr⟩, ⟨16, 9, true, .intPtr⟩] =
        .ok (history.map Load.access, pool) ∧
      history.map Load.access = [.regular, .regular, .overflowed, .regular, .overflowed] ∧
      (∀ before l after, history = before ++ l :: after →
        (l.access = .regular ↔ Admits (fun _ => 4) before l)) ∧
      ∀ l ∈ history, l.access = .regular → pool.offsetOf l.slot < 2 ^ 4 := by
  have hreach : ∀ _ : EntryType, 1 ≤ 4 ∧ 4 ≤ 62 := fun _ => by decide
  obtain ⟨history, pool, hadd, -, -, hexact, hoffsets⟩ := addAll_regular_iff (fun _ => 4) hreach
    [⟨0, 7, true, .intPtr⟩, ⟨4, 9, false, .intPtr⟩, ⟨8, 5, true, .double⟩,
      ⟨12, 7, true, .intPtr⟩, ⟨16, 9, true, .intPtr⟩]
  have haccesses : Except.map Prod.fst ((ConstantPool.new 4 4).addAll
        [⟨0, 7, true, .intPtr⟩, ⟨4, 9, false, .intPtr⟩, ⟨8, 5, true, .double⟩,
          ⟨12, 7, true, .intPtr⟩, ⟨16, 9, true, .intPtr⟩]) =
      .ok [.regular, .regular, .overflowed, .regular, .overflowed] := by
    decide +kernel
  rw [hadd] at haccesses
  exact ⟨history, pool, hadd, Except.ok.inj haccesses, hexact, hoffsets⟩

end ConstantPool

end CodeReloc
