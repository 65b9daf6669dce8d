import CodeReloc.Proofs.ConstantPool.Collecting
import Mathlib.Data.List.Dedup
import Mathlib.Data.List.Nodup

set_option autoImplicit false

/-!
# The layout of a pool

A pool is laid out load by load. A load that is not merged founds a slot behind those that are there
already, so the slots lie in the order of their first loads (`founded`), and the offset of a slot is
its place in that order (`ConstantPool.offsetOf`). From the history of a pool this module reads off
what the layout promises, before any code is emitted:

- `Collected.founded_nodup` and `Collected.mem_founded` : every load reaches exactly one slot;
- `Collected.offsetOf_lt` : the slot of a regular load is within its reach;
- `Collected.slot_eq_iff` : which loads share a slot.
-/

namespace CodeReloc

/-- The slots that loads found, in order. -/
def founded (loads : List Load) : List Slot := (loads.filter fun l => !l.merged).map Load.slot

theorem founded_append (loads more : List Load) :
    founded (loads ++ more) = founded loads ++ founded more := by
  rw [founded, List.filter_append, List.map_append]
  rfl

theorem founded_merged {l : Load} (h : l.merged = true) : founded [l] = [] := by
  rw [founded, List.filter_cons_of_neg (by rw [h]; decide)]
  rfl

theorem founded_unmerged {l : Load} (h : l.merged = false) : founded [l] = [l.slot] := by
  rw [founded, List.filter_cons_of_pos (by rw [h]; rfl)]
  rfl

theorem mem_founded_iff {loads : List Load} {slot : Slot} :
    slot ∈ founded loads ↔ ∃ l ∈ loads, l.merged = false ∧ l.slot = slot := by
  rw [founded, List.mem_map]
  constructor
  · rintro ⟨l, hl, hslot⟩
    rw [List.mem_filter, Bool.not_eq_true'] at hl
    exact ⟨l, hl.1, hl.2, hslot⟩
  · rintro ⟨l, hl, hmerged, hslot⟩
    refine ⟨l, ?_, hslot⟩
    rw [List.mem_filter, Bool.not_eq_true']
    exact ⟨hl, hmerged⟩

theorem length_founded (loads : List Load) :
    (founded loads).length = loads.countP fun l => !l.merged := by
  rw [founded, List.length_map, List.countP_eq_length_filter]

/-- The type that a slot belongs to. -/
def Slot.type : Slot → EntryType
  | .shared type _ => type
  | .own type _ => type

/-- A slot belongs to the type of every load that reaches it. -/
theorem PoolSection.Places.type_eq {s : PoolSection} {l : Load} (h : s.Places l) :
    l.slot.type = l.constant.type := by
  cases h <;> rfl

/-- A shared slot belongs to one value. -/
theorem PoolSection.slotOf_injective {s : PoolSection} {value value' : UInt64} {slot : Nat}
    (h : s.slotOf value = some slot) (h' : s.slotOf value' = some slot) : value = value' := by
  obtain ⟨hlt, hvalue, -⟩ := Array.findIdx?_eq_some_iff_getElem.1 h
  obtain ⟨_, hvalue', -⟩ := Array.findIdx?_eq_some_iff_getElem.1 h'
  exact (beq_iff_eq.1 hvalue).symm.trans (beq_iff_eq.1 hvalue')

/-- The shared slots lie in their order. -/
theorem getElem?_sharedLoads (type : EntryType) (entries : List PoolEntry) (start index : Nat) :
    (sharedLoads type start entries)[index]? = entries[index]?.map fun e =>
      ⟨e.constant type, .regular, .shared type (start + index), false⟩ := by
  induction entries generalizing start index with
  | nil => rfl
  | cons e rest ih =>
    cases index with
    | zero => rfl
    | succ index =>
      have hindex : start + 1 + index = start + (index + 1) := by omega
      rw [sharedLoads, List.getElem?_cons_succ, List.getElem?_cons_succ, ih, hindex]

/-- Every shared slot was founded. -/
theorem mem_founded_sharedLoads (type : EntryType) {entries : List PoolEntry} {index : Nat}
    (h : index < entries.length) : .shared type index ∈ founded (sharedLoads type 0 entries) := by
  have hload := getElem?_sharedLoads type entries 0 index
  rw [List.getElem?_eq_getElem h, Option.map_some, Nat.zero_add] at hload
  exact mem_founded_iff.2 ⟨_, List.mem_of_getElem? hload, rfl, rfl⟩

theorem access_of_mem_sharedLoads {type : EntryType} {entries : List PoolEntry} {start : Nat}
    {l : Load} (h : l ∈ sharedLoads type start entries) : l.access = .regular := by
  induction entries generalizing start with
  | nil => cases h
  | cons e rest ih =>
    rcases List.mem_cons.1 h with rfl | h
    · rfl
    · exact ih h

/-- The unmerged loads of a group have the access of the group. -/
theorem access_of_mem_groupLoads {type : EntryType} {access : Access} {entries : List PoolEntry}
    {start : Nat} {l : Load} (h : l ∈ groupLoads type access start entries)
    (hmerged : l.merged = false) : l.access = access := by
  induction entries generalizing start with
  | nil => cases h
  | cons e rest ih =>
    rcases List.mem_cons.1 h with rfl | h
    · rw [PoolEntry.load] at hmerged ⊢
      split at hmerged
      · rfl
      · cases hmerged
    · exact ih h

namespace ConstantPool

/-- All loads, in the order of the layout. -/
def loads (p : ConstantPool) : List Load :=
  p.doubles.regularLoads .double ++ (p.intPtrs.regularLoads .intPtr ++
    (p.doubles.overflowedLoads .double ++ p.intPtrs.overflowedLoads .intPtr))

/-- How far a slot lies from the start of the pool. -/
def offsetOf (p : ConstantPool) (slot : Slot) : Nat := 8 * (founded p.loads).idxOf slot

namespace Collected

variable {reach : EntryType → Nat} {p : ConstantPool} {history : List Load} {l l' : Load}

/-- Loads are those of doubles and those of pointers. -/
theorem types_perm (history : List Load) :
    (history.filter (fun l => l.constant.type == .double) ++
      history.filter fun l => l.constant.type == .intPtr).Perm history := by
  have htypes : (fun l : Load => l.constant.type == .intPtr) =
      fun l => !(l.constant.type == .double) := by
    funext l
    cases l.constant.type <;> rfl
  rw [htypes]
  exact List.filter_append_perm _ history

/-- The history and the layout hold the same loads. -/
theorem loads_perm (h : Collected reach p history) : history.Perm p.loads := by
  have hsections := (h.holds .double).loads_perm.append (h.holds .intPtr).loads_perm
  refine (types_perm history).symm.trans (hsections.trans ?_)
  -- the overflowed doubles come after the regular pointers
  change (p.doubles.regularLoads .double ++ p.doubles.overflowedLoads .double ++
    (p.intPtrs.regularLoads .intPtr ++ p.intPtrs.overflowedLoads .intPtr)).Perm p.loads
  rw [loads, List.append_assoc]
  apply List.Perm.append_left
  rw [← List.append_assoc, ← List.append_assoc]
  exact List.perm_append_comm.append_right _

/-- A load of the history stands in the history of its type. -/
theorem mem_filter (hl : l ∈ history) :
    l ∈ history.filter fun other => other.constant.type == l.constant.type :=
  List.mem_filter.2 ⟨hl, beq_self_eq_true _⟩

theorem places (h : Collected reach p history) (hl : l ∈ history) :
    (p.part l.constant.type).Places l :=
  (h.holds _).places l (mem_filter hl)

/-- A pool is empty as long as it has no history. -/
theorem isEmpty_iff (h : Collected reach p history) : p.isEmpty = true ↔ history = [] := by
  have hdoubles := (h.holds .double).loads_perm.length_eq
  have hpointers := (h.holds .intPtr).loads_perm.length_eq
  have htypes := (types_perm history).length_eq
  rw [PoolSection.length_loads] at hdoubles hpointers
  change _ = p.doubles.shared.size + p.doubles.entries.size at hdoubles
  change _ = p.intPtrs.shared.size + p.intPtrs.entries.size at hpointers
  rw [List.length_append] at htypes
  rw [isEmpty, PoolSection.isEmpty, PoolSection.isEmpty, ← List.length_eq_zero_iff]
  simp only [Bool.and_eq_true, Array.isEmpty_iff_size_eq_zero]
  omega

/-- No two loads have founded the same slot. -/
theorem distinct (h : Collected reach p history) :
    history.Pairwise fun l l' => l.merged = false → l'.merged = false → l.slot ≠ l'.slot := by
  refine ((types_perm history).pairwise_iff ?_).1 (List.pairwise_append.2 ⟨?_, ?_, ?_⟩)
  · intro l l' hdistinct hl' hl
    exact (hdistinct hl hl').symm
  · exact (h.holds .double).distinct
  · exact (h.holds .intPtr).distinct
  · -- slots of different types are different
    intro l hl l' hl' _ _ hslot
    have htype := ((h.holds .double).places l hl).type_eq
    have htype' := ((h.holds .intPtr).places l' hl').type_eq
    rw [hslot, htype', (h.holds .double).type_eq l hl, (h.holds .intPtr).type_eq l' hl'] at htype
    cases htype

/-- **Every slot is founded once.** -/
theorem founded_nodup (h : Collected reach p history) : (founded p.loads).Nodup := by
  have hperm : (founded history).Perm (founded p.loads) := (h.loads_perm.filter _).map _
  refine hperm.nodup_iff.1 ?_
  rw [founded, List.Nodup, List.pairwise_map, List.pairwise_filter]
  refine h.distinct.imp ?_
  intro l l' hdistinct hl hl'
  exact hdistinct ((Bool.not_eq_true' _).mp hl) ((Bool.not_eq_true' _).mp hl')

/-- The first load of a slot founds it among the regular ones, if the slot is regular. -/
theorem mem_founded_regular (h : Collected reach p history) (hl : l ∈ history)
    (hregular : l.access = .regular) :
    l.slot ∈ founded ((p.part l.constant.type).regularLoads l.constant.type) := by
  have hplaces := h.places hl
  rw [PoolSection.regularLoads, founded_append]
  cases hmerged : l.merged with
  | false =>
    -- an unmerged load founds its slot, and the overflowed ones are not regular
    have hmem := (h.holds l.constant.type).loads_perm.mem_iff.1 (mem_filter hl)
    rcases List.mem_append.1 hmem with hfront | hback
    · rw [← founded_append]
      exact mem_founded_iff.2 ⟨l, hfront, hmerged, rfl⟩
    · have haccess := access_of_mem_groupLoads hback hmerged
      rw [hregular] at haccess
      cases haccess
  | true =>
    cases hplaces with
    | shared hsharable hslot =>
      exact List.mem_append_left _ (mem_founded_sharedLoads _ (PoolSection.slotOf_lt hslot))
    | own => cases hmerged

/-- A slot lies behind those that were founded before it. -/
theorem offsetOf_founder (h : Collected reach p history) {before after : List Load}
    (hsplit : p.loads = before ++ l :: after) (hl : l.merged = false) :
    p.offsetOf l.slot = 8 * (founded before).length := by
  have hfounded : founded p.loads = founded before ++ l.slot :: founded after := by
    rw [hsplit, List.append_cons, List.append_assoc, founded_append, founded_append,
      founded_unmerged hl]
    rfl
  have hnodup := h.founded_nodup
  rw [hfounded] at hnodup
  have hnew : l.slot ∉ founded before := by
    intro hmem
    exact List.disjoint_of_nodup_append hnodup hmem List.mem_cons_self
  rw [offsetOf, hfounded, List.idxOf_append_of_notMem hnew, List.idxOf_cons_self, Nat.add_zero]

/-- **Every load reaches a slot of the layout.** -/
theorem mem_founded (h : Collected reach p history) (hl : l ∈ history) :
    l.slot ∈ founded p.loads := by
  cases hmerged : l.merged with
  | false => exact mem_founded_iff.2 ⟨l, h.loads_perm.mem_iff.1 hl, hmerged, rfl⟩
  | true =>
    have hregular : l.access = .regular := by
      cases h.places hl with
      | shared => rfl
      | own => cases hmerged
    obtain ⟨l', hl', hfounds⟩ := mem_founded_iff.1 (h.mem_founded_regular hl hregular)
    refine mem_founded_iff.2 ⟨l', ?_, hfounds⟩
    cases htype : l.constant.type with
    | double =>
      rw [htype] at hl'
      exact List.mem_append_left _ hl'
    | intPtr =>
      rw [htype] at hl'
      exact List.mem_append_right _ (List.mem_append_left _ hl')

/-- The regular part of the layout has no more slots than were counted. -/
theorem length_founded_le (h : Collected reach p history) (type : EntryType) :
    (founded ((p.part type).regularLoads type)).length ≤ p.counts type := by
  have hholds := h.holds type
  have hfront : (founded ((p.part type).regularLoads type)).length =
      ((p.part type).regularLoads type).countP fun l => l.access == .regular && !l.merged := by
    rw [length_founded]
    apply List.countP_congr
    intro l hl
    cases hmerged : l.merged with
    | true => simp
    | false =>
      rcases List.mem_append.1 hl with hshared | hgroup
      · simp [access_of_mem_sharedLoads hshared]
      · simp [access_of_mem_groupLoads hgroup hmerged]
  rw [hfront, counts, hholds.count_eq, hholds.loads_perm.countP_eq, PoolSection.loads,
    List.countP_append]
  exact Nat.le_add_right _ _

/-- **A regular load reaches its slot.** -/
theorem offsetOf_lt (h : Collected reach p history) (hl : l ∈ history)
    (hregular : l.access = .regular) : p.offsetOf l.slot < span (reach l.constant.type) := by
  have hmem := h.mem_founded_regular hl hregular
  have hdoubles := h.length_founded_le .double
  have hpointers := h.length_founded_le .intPtr
  obtain ⟨hdoubleReach, hpointerReach⟩ := h.capacity
  rw [offsetOf]
  cases htype : l.constant.type with
  | double =>
    rw [htype] at hmem
    change l.slot ∈ founded (p.doubles.regularLoads .double) at hmem
    have hindex : (founded p.loads).idxOf l.slot <
        (founded (p.doubles.regularLoads .double)).length := by
      rw [loads, founded_append, List.idxOf_append_of_mem hmem]
      exact List.idxOf_lt_length_of_mem hmem
    change (founded (p.doubles.regularLoads .double)).length ≤ _ at hdoubles
    omega
  | intPtr =>
    -- the slots of pointers lie behind the regular slots of doubles
    rw [htype] at hmem
    change l.slot ∈ founded (p.intPtrs.regularLoads .intPtr) at hmem
    have hmem' : l.slot ∈ founded (p.doubles.regularLoads .double) ++
        founded (p.intPtrs.regularLoads .intPtr) := List.mem_append_right _ hmem
    have hindex : (founded p.loads).idxOf l.slot <
        (founded (p.doubles.regularLoads .double)).length +
          (founded (p.intPtrs.regularLoads .intPtr)).length := by
      rw [loads, founded_append, founded_append, ← List.append_assoc,
        List.idxOf_append_of_mem hmem', ← List.length_append]
      exact List.idxOf_lt_length_of_mem hmem'
    have hsome := List.length_pos_of_mem hmem
    change (founded (p.doubles.regularLoads .double)).length ≤ _ at hdoubles
    change (founded (p.intPtrs.regularLoads .intPtr)).length ≤ _ at hpointers
    change 0 < (founded (p.intPtrs.regularLoads .intPtr)).length at hsome
    omega

/-- Two loads do not found the same slot. -/
theorem slot_ne (h : Collected reach p history) {i j : Nat} (hij : i ≠ j)
    (hi : history[i]? = some l) (hj : history[j]? = some l') (hl : l.merged = false)
    (hl' : l'.merged = false) : l.slot ≠ l'.slot := by
  obtain ⟨hilt, rfl⟩ := List.getElem?_eq_some_iff.1 hi
  obtain ⟨hjlt, rfl⟩ := List.getElem?_eq_some_iff.1 hj
  have hdistinct := List.pairwise_iff_getElem.1 h.distinct
  rcases Nat.lt_or_gt_of_ne hij with hlt | hgt
  · exact hdistinct i j hilt hjlt hlt hl hl'
  · exact (hdistinct j i hjlt hilt hgt hl' hl).symm

/-- Loads that reach the same slot are one load, or ask for the same sharable constant and were
announced as regular. -/
theorem eq_of_slot_eq (h : Collected reach p history) {i j : Nat}
    (hi : history[i]? = some l) (hj : history[j]? = some l') (hslot : l.slot = l'.slot) :
    i = j ∨ l.constant.type = l'.constant.type ∧ l.constant.value = l'.constant.value ∧
      l.constant.sharable = true ∧ l'.constant.sharable = true ∧ l.access = .regular := by
  have hplaces := h.places (List.mem_of_getElem? hi)
  have hplaces' := h.places (List.mem_of_getElem? hj)
  cases hplaces with
  | shared hsharable hfound =>
    cases hplaces' with
    | shared hsharable' hfound' =>
      obtain ⟨htype, rfl⟩ := Slot.shared.inj hslot
      rw [← htype] at hfound'
      have hvalue := PoolSection.slotOf_injective hfound hfound'
      exact Or.inr ⟨htype, hvalue, hsharable, hsharable', rfl⟩
    | own => cases hslot
  | own =>
    cases hplaces' with
    | shared => cases hslot
    | own =>
      -- both have founded the slot, and a slot is founded once
      by_cases hij : i = j
      · exact Or.inl hij
      · exact absurd hslot (h.slot_ne hij hi hj rfl rfl)

theorem value_eq (h : Collected reach p history) (hl : l ∈ history) (hl' : l' ∈ history)
    (hslot : l.slot = l'.slot) : l.constant.value = l'.constant.value := by
  obtain ⟨i, hi⟩ := List.mem_iff_getElem?.1 hl
  obtain ⟨j, hj⟩ := List.mem_iff_getElem?.1 hl'
  rcases h.eq_of_slot_eq hi hj hslot with rfl | ⟨-, hvalue, -⟩
  · rw [hi] at hj
    cases hj
    rfl
  · exact hvalue

/-- What becomes of a sharable constant is settled by its value: either every load of it reaches the
shared slot, or every one of them has overflowed. -/
theorem sharable_cases (h : Collected reach p history) (hl : l ∈ history)
    (hsharable : l.constant.sharable = true) :
    (l.access = .regular ∧ ∃ slot,
      (p.part l.constant.type).slotOf l.constant.value = some slot ∧
        l.slot = .shared l.constant.type slot) ∨
    (l.access = .overflowed ∧ (p.part l.constant.type).slotOf l.constant.value = none) := by
  cases h.places hl with
  | shared _ hslot => exact Or.inl ⟨rfl, _, hslot, rfl⟩
  | own _ _ hoverflowed => exact Or.inr (hoverflowed hsharable)

/-- The access of the first sharable constant of a type and value. -/
def firstAccess (history : List Load) (type : EntryType) (value : UInt64) : Option Access :=
  (history.find? fun l =>
    l.constant.sharable && l.constant.type == type && l.constant.value == value).map Load.access

/-- The first sharable load decides for all. -/
theorem firstAccess_eq (h : Collected reach p history) (hl : l ∈ history)
    (hsharable : l.constant.sharable = true) :
    firstAccess history l.constant.type l.constant.value = some l.access := by
  rw [firstAccess]
  cases hfind : history.find? fun other => other.constant.sharable &&
      other.constant.type == l.constant.type && other.constant.value == l.constant.value with
  | none =>
    -- the load itself would have been found
    have hnone := List.find?_eq_none.1 hfind l hl
    rw [hsharable, beq_self_eq_true, beq_self_eq_true] at hnone
    exact absurd rfl hnone
  | some first =>
    have hmem := List.mem_of_find?_eq_some hfind
    have hmatch := List.find?_some hfind
    rw [Bool.and_eq_true, Bool.and_eq_true, beq_iff_eq, beq_iff_eq] at hmatch
    obtain ⟨⟨hsharable', htype⟩, hvalue⟩ := hmatch
    have hcases := h.sharable_cases hmem hsharable'
    rw [htype, hvalue] at hcases
    -- both are looked up under the same value
    rcases h.sharable_cases hl hsharable with ⟨haccess, slot, hslot, -⟩ | ⟨haccess, hslot⟩
    · rcases hcases with ⟨haccess', -⟩ | ⟨-, hslot'⟩
      · rw [Option.map_some, haccess, haccess']
      · rw [hslot] at hslot'
        cases hslot'
    · rcases hcases with ⟨-, slot, hslot', -⟩ | ⟨haccess', -⟩
      · rw [hslot] at hslot'
        cases hslot'
      · rw [Option.map_some, haccess, haccess']

/-- **Two loads share a slot exactly when their constants are sharable and equal and the first such
constant was regular.** -/
theorem slot_eq_iff (h : Collected reach p history) {i j : Nat} (hij : i ≠ j)
    (hi : history[i]? = some l) (hj : history[j]? = some l') :
    l.slot = l'.slot ↔ l.constant.type = l'.constant.type ∧ l.constant.sharable = true ∧
      l'.constant.sharable = true ∧ l.constant.value = l'.constant.value ∧
        firstAccess history l.constant.type l.constant.value = some .regular := by
  have hl := List.mem_of_getElem? hi
  have hl' := List.mem_of_getElem? hj
  constructor
  · intro hslot
    rcases h.eq_of_slot_eq hi hj hslot with
      heq | ⟨htype, hvalue, hsharable, hsharable', hregular⟩
    · exact absurd heq hij
    · refine ⟨htype, hsharable, hsharable', hvalue, ?_⟩
      rw [h.firstAccess_eq hl hsharable, hregular]
  · rintro ⟨htype, hsharable, hsharable', hvalue, hfirst⟩
    have hcases := h.sharable_cases hl' hsharable'
    rw [← htype, ← hvalue] at hcases
    rw [h.firstAccess_eq hl hsharable] at hfirst
    rcases h.sharable_cases hl hsharable with ⟨-, slot, hfound, hslot⟩ | ⟨haccess, -⟩
    · rcases hcases with ⟨-, slot', hfound', hslot'⟩ | ⟨-, hfound'⟩
      · rw [hfound] at hfound'
        cases hfound'
        rw [hslot, hslot']
      · rw [hfound] at hfound'
        cases hfound'
    · rw [haccess] at hfirst
      cases hfirst

end Collected

end ConstantPool

end CodeReloc
