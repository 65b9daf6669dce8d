import CodeReloc.ConstantPool.Basic

set_option autoImplicit false

/-!
# Constants of one type

Every constant that is added to a section brings a load (`Load`), with the access that was announced
for it and the slot that it has or shares. The loads of a section in the order in which they came
(the history) and in the order of the layout (`PoolSection.loads`) are the same up to order, and
what is known of a load when it comes stays true whatever comes after it:

- `PoolSection.Adds` : the four things that an addition can do to a section;
- `PoolSection.Places` : what a section knows about a load of its history;
- `PoolSection.Holds.add` : every addition keeps the history.
-/

namespace CodeReloc

/-! ## Loads and their slots -/

/-- A constant that a load asks for. -/
structure Constant where
  position : Nat
  value : UInt64
  sharable : Bool
  type : EntryType
  deriving DecidableEq

/-- A constant as it is added. -/
def Constant.entry (c : Constant) : PoolEntry := ⟨c.position, c.value, c.sharable, none⟩

/-- A constant as it was asked for. -/
def PoolEntry.constant (e : PoolEntry) (type : EntryType) : Constant :=
  ⟨e.position, e.value, e.sharable, type⟩

/-- The name of a slot: where its constant stands in the section of a type. -/
inductive Slot where
  | shared (type : EntryType) (index : Nat)
  | own (type : EntryType) (index : Nat)
  deriving DecidableEq

/-- A load with the access that was announced for it and the slot that it reaches. A load is merged
if the slot was there before it. -/
structure Load where
  constant : Constant
  access : Access
  slot : Slot
  merged : Bool

/-- The loads of the slots that may be shared, from an index on. -/
def sharedLoads (type : EntryType) : Nat → List PoolEntry → List Load
  | _, [] => []
  | index, e :: rest =>
    ⟨e.constant type, .regular, .shared type index, false⟩ :: sharedLoads type (index + 1) rest

/-- The load of a constant of a group. -/
def PoolEntry.load (type : EntryType) (access : Access) (index : Nat) (e : PoolEntry) : Load :=
  match e.slot with
  | none => ⟨e.constant type, access, .own type index, false⟩
  | some slot => ⟨e.constant type, .regular, .shared type slot, true⟩

/-- The loads of a group, from an index on. -/
def groupLoads (type : EntryType) (access : Access) : Nat → List PoolEntry → List Load
  | _, [] => []
  | index, e :: rest => e.load type access index :: groupLoads type access (index + 1) rest

theorem sharedLoads_append (type : EntryType) (index : Nat) (entries more : List PoolEntry) :
    sharedLoads type index (entries ++ more) =
      sharedLoads type index entries ++ sharedLoads type (index + entries.length) more := by
  induction entries generalizing index with
  | nil => rfl
  | cons e rest ih =>
    have hindex : index + 1 + rest.length = index + (e :: rest).length := by
      rw [List.length_cons]
      omega
    rw [List.cons_append, sharedLoads, sharedLoads, List.cons_append, ih, hindex]

theorem groupLoads_append (type : EntryType) (access : Access) (index : Nat)
    (entries more : List PoolEntry) :
    groupLoads type access index (entries ++ more) =
      groupLoads type access index entries ++
        groupLoads type access (index + entries.length) more := by
  induction entries generalizing index with
  | nil => rfl
  | cons e rest ih =>
    have hindex : index + 1 + rest.length = index + (e :: rest).length := by
      rw [List.length_cons]
      omega
    rw [List.cons_append, groupLoads, groupLoads, List.cons_append, ih, hindex]

@[simp] theorem length_sharedLoads (type : EntryType) (index : Nat) (entries : List PoolEntry) :
    (sharedLoads type index entries).length = entries.length := by
  induction entries generalizing index with
  | nil => rfl
  | cons e rest ih => rw [sharedLoads, List.length_cons, ih, List.length_cons]

@[simp] theorem length_groupLoads (type : EntryType) (access : Access) (index : Nat)
    (entries : List PoolEntry) :
    (groupLoads type access index entries).length = entries.length := by
  induction entries generalizing index with
  | nil => rfl
  | cons e rest ih => rw [groupLoads, List.length_cons, ih, List.length_cons]

/-! ## The constants of a type -/

namespace PoolSection

/-- The constants that are laid out beside the shared slots, in front of the overflowed ones. -/
def regularEntries (s : PoolSection) : List PoolEntry :=
  s.entries.toList.take (s.overflowStart.getD s.entries.size)

/-- The constants that are laid out with the overflowed ones. -/
def overflowedEntries (s : PoolSection) : List PoolEntry :=
  s.entries.toList.drop (s.overflowStart.getD s.entries.size)

/-- The loads of the regular slots, in the order of the layout. -/
def regularLoads (s : PoolSection) (type : EntryType) : List Load :=
  sharedLoads type 0 s.shared.toList ++ groupLoads type .regular 0 s.regularEntries

/-- The loads of the overflowed slots, in the order of the layout. -/
def overflowedLoads (s : PoolSection) (type : EntryType) : List Load :=
  groupLoads type .overflowed s.regularEntries.length s.overflowedEntries

/-- **What an addition can do to the constants of a type.** A constant is merged with an earlier
one, founds a slot that may be shared, or gets a slot of its own, among the regular ones as long as
nothing has overflowed and among the overflowed ones otherwise. -/
inductive Adds (s : PoolSection) (c : Constant) : PoolSection → Load → Prop where
  | merged (slot : Nat) (hsharable : c.sharable = true) (hslot : s.slotOf c.value = some slot) :
    Adds s c { s with entries := s.entries.push { c.entry with slot := some slot } }
      ⟨c, .regular, .shared c.type slot, true⟩
  | founded (hsharable : c.sharable = true) (hslot : s.slotOf c.value = none)
      (hopen : s.overflowStart = none) :
    Adds s c
      { s with shared := s.shared.push c.entry, regularCount := s.regularCount + 1 }
      ⟨c, .regular, .shared c.type s.shared.size, false⟩
  | regular (hsharable : c.sharable = false) (hopen : s.overflowStart = none) :
    Adds s c
      { s with entries := s.entries.push c.entry, regularCount := s.regularCount + 1 }
      ⟨c, .regular, .own c.type s.entries.size, false⟩
  | overflowed (hslot : c.sharable = true → s.slotOf c.value = none) :
    Adds s c
      { s with
        entries := s.entries.push c.entry
        overflowStart := some (s.overflowStart.getD s.entries.size) }
      ⟨c, .overflowed, .own c.type s.entries.size, false⟩

/-- The constant with the slot that it is merged into. -/
def settle (s : PoolSection) (c : Constant) : PoolEntry :=
  { c.entry with slot := if c.sharable then s.slotOf c.value else none }

theorem settle_eq (s : PoolSection) (c : Constant) {slot : Option Nat}
    (hslot : (s.settle c).slot = slot) : s.settle c = { c.entry with slot := slot } := by
  rw [← hslot]
  rfl

/-- The shared slot of a value is one of the shared slots. -/
theorem slotOf_lt {s : PoolSection} {value : UInt64} {slot : Nat} (h : s.slotOf value = some slot) :
    slot < s.shared.size := by
  obtain ⟨hlt, -⟩ := Array.findIdx?_eq_some_iff_getElem.1 h
  exact hlt

/-- A constant is merged if it may share a slot and its value has one. -/
theorem settle_slot_iff (s : PoolSection) (c : Constant) {slot : Nat} :
    (s.settle c).slot = some slot ↔ c.sharable = true ∧ s.slotOf c.value = some slot := by
  rw [settle]
  cases c.sharable with
  | false =>
    constructor
    · intro hslot
      cases hslot
    · rintro ⟨hsharable, -⟩
      cases hsharable
  | true => exact ⟨fun hslot => ⟨rfl, hslot⟩, fun hfound => hfound.2⟩

/-- A constant is merged only with a slot that is there. -/
theorem settle_lt (s : PoolSection) (c : Constant) {slot : Nat}
    (hslot : (s.settle c).slot = some slot) : slot < s.shared.size :=
  slotOf_lt ((s.settle_slot_iff c).1 hslot).2

/-- An addition is one of the four, whatever access it is given, as long as a merged constant is
regular and any other one overflows if one has overflowed before. -/
theorem insert_adds (s : PoolSection) (c : Constant) {access : Access}
    (hmerged : (s.settle c).isMerged = true → access = .regular)
    (hoverflow : (s.settle c).isMerged = false → s.overflows = true → access = .overflowed) :
    ∃ l, s.Adds c (s.insert (s.settle c) access) l ∧ l.access = access ∧
      l.merged = (s.settle c).isMerged := by
  cases hslot : (s.settle c).slot with
  | some slot =>
    have hsettle := s.settle_eq c hslot
    have haccess : access = .regular := by
      apply hmerged
      rw [PoolEntry.isMerged, hslot]
      rfl
    have hfound := (s.settle_slot_iff c).1 hslot
    have hadds := Adds.merged slot hfound.1 hfound.2
    rw [hsettle, haccess]
    exact ⟨_, by simpa [insert, PoolEntry.isMerged] using hadds, rfl, rfl⟩
  | none =>
    have hsettle := s.settle_eq c hslot
    have hnone : c.sharable = true → s.slotOf c.value = none := by
      intro hsharable
      rw [settle, hsharable] at hslot
      exact hslot
    have hfresh : (s.settle c).isMerged = false := by
      rw [PoolEntry.isMerged, hslot]
      rfl
    rw [hsettle]
    cases access with
    | regular =>
      -- a regular slot is given out only while nothing has overflowed
      have hopen : s.overflowStart = none := by
        cases hstart : s.overflowStart with
        | none => rfl
        | some start =>
          have hoverflows : s.overflows = true := by
            rw [overflows, hstart]
            rfl
          cases hoverflow hfresh hoverflows
      cases hsharable : c.sharable with
      | true =>
        have hadds := Adds.founded hsharable (hnone hsharable) hopen
        refine ⟨⟨c, .regular, .shared c.type s.shared.size, false⟩, ?_, rfl, rfl⟩
        simpa [insert, PoolEntry.isMerged, Constant.entry, hsharable, overflows, hopen] using hadds
      | false =>
        have hadds := Adds.regular hsharable hopen
        refine ⟨⟨c, .regular, .own c.type s.entries.size, false⟩, ?_, rfl, rfl⟩
        simpa [insert, PoolEntry.isMerged, Constant.entry, hsharable, overflows, hopen] using hadds
    | overflowed =>
      have hadds := Adds.overflowed hnone
      refine ⟨⟨c, .overflowed, .own c.type s.entries.size, false⟩, ?_, rfl, rfl⟩
      cases hstart : s.overflowStart with
      | none =>
        simpa [insert, PoolEntry.isMerged, Constant.entry, overflows, hstart] using hadds
      | some start =>
        simpa [insert, PoolEntry.isMerged, Constant.entry, overflows, hstart] using hadds

namespace Adds

variable {s s' : PoolSection} {c : Constant} {l : Load}

theorem constant_eq (h : s.Adds c s' l) : l.constant = c := by
  cases h <;> rfl

theorem reach_eq (h : s.Adds c s' l) : s'.reach = s.reach := by
  cases h <;> rfl

/-- A regular slot is counted when it is given out. -/
theorem count_eq (h : s.Adds c s' l) :
    s'.regularCount = s.regularCount + if l.access == .regular && !l.merged then 1 else 0 := by
  cases h <;> rfl

/-- A type overflows with the first load that does, and for good. -/
theorem overflows_iff (h : s.Adds c s' l) :
    s'.overflows = true ↔ s.overflows = true ∨ l.access = .overflowed := by
  cases h with
  | overflowed => exact ⟨fun _ => Or.inr rfl, fun _ => rfl⟩
  | _ =>
    constructor
    · exact Or.inl
    · rintro (hoverflows | haccess)
      · exact hoverflows
      · cases haccess

end Adds

/-! ## The history of a type -/

/-- All loads of a type, in the order of the layout. -/
def loads (s : PoolSection) (type : EntryType) : List Load :=
  s.regularLoads type ++ s.overflowedLoads type

variable {s s' : PoolSection} {type : EntryType} {c : Constant} {l : Load} {history : List Load}

/-- The entries are the regular and the overflowed ones. -/
theorem length_entries (s : PoolSection) :
    s.regularEntries.length + s.overflowedEntries.length = s.entries.size := by
  rw [regularEntries, overflowedEntries, ← List.length_append, List.take_append_drop,
    Array.length_toList]

theorem length_loads (s : PoolSection) (type : EntryType) :
    (s.loads type).length = s.shared.size + s.entries.size := by
  simp only [loads, regularLoads, overflowedLoads, List.length_append, length_sharedLoads,
    length_groupLoads, Array.length_toList, ← s.length_entries]
  omega

/-- As long as nothing has overflowed, all entries are regular. -/
theorem entries_open (hopen : s.overflowStart = none) :
    s.regularEntries = s.entries.toList ∧ s.overflowedEntries = [] := by
  rw [regularEntries, overflowedEntries, hopen]
  constructor
  · exact List.take_of_length_le (Nat.le_of_eq Array.length_toList)
  · exact List.drop_of_length_le (Nat.le_of_eq Array.length_toList)

/-- As long as nothing has overflowed, there are no overflowed loads. -/
theorem overflowedLoads_open (hopen : s.overflows ≠ true) : s.overflowedLoads type = [] := by
  have hstart : s.overflowStart = none := by
    cases hstart : s.overflowStart with
    | none => rfl
    | some start =>
      rw [overflows, hstart] at hopen
      exact absurd rfl hopen
  rw [overflowedLoads, (entries_open hstart).2, groupLoads]

/-- As long as nothing has overflowed, one more constant comes after all loads. -/
theorem loads_push_open (hopen : s.overflowStart = none) (e : PoolEntry) (count : Nat) :
    loads { s with entries := s.entries.push e, regularCount := count } type =
      s.loads type ++ [e.load type .regular s.entries.size] := by
  have hbefore := entries_open hopen
  have hafter := entries_open
    (s := { s with entries := s.entries.push e, regularCount := count }) hopen
  rw [Array.toList_push] at hafter
  have hgroup := groupLoads_append type .regular 0 s.entries.toList [e]
  rw [Array.length_toList, Nat.zero_add] at hgroup
  rw [loads, loads, regularLoads, regularLoads, overflowedLoads, overflowedLoads, hafter.1,
    hafter.2, hbefore.1, hbefore.2, hgroup, groupLoads, groupLoads, groupLoads, groupLoads,
    List.append_nil, List.append_nil, List.append_assoc]

/-- Once one has overflowed, one more constant comes after all loads, with the overflowed ones. -/
theorem loads_push_closed (type : EntryType) {start : Nat} (hclosed : s.overflowStart = some start)
    (hle : start ≤ s.entries.size) (e : PoolEntry) :
    loads { s with entries := s.entries.push e } type =
      s.loads type ++ [e.load type .overflowed s.entries.size] := by
  have hlength : start ≤ s.entries.toList.length := by
    rw [Array.length_toList]
    exact hle
  have hregular : regularEntries { s with entries := s.entries.push e } = s.regularEntries := by
    rw [regularEntries, regularEntries, hclosed, Array.toList_push]
    exact List.take_append_of_le_length hlength
  have hoverflowed : overflowedEntries { s with entries := s.entries.push e } =
      s.overflowedEntries ++ [e] := by
    rw [overflowedEntries, overflowedEntries, hclosed, Array.toList_push]
    exact List.drop_append_of_le_length hlength
  rw [loads, loads, regularLoads, regularLoads, overflowedLoads, overflowedLoads, hregular,
    hoverflowed, groupLoads_append, s.length_entries, groupLoads, groupLoads, ← List.append_assoc]

/-- A constant that founds a slot comes after the other shared ones. -/
theorem loads_found (s : PoolSection) (type : EntryType) (e : PoolEntry) (count : Nat) :
    (loads { s with shared := s.shared.push e, regularCount := count } type).Perm
      (s.loads type ++ [⟨e.constant type, .regular, .shared type s.shared.size, false⟩]) := by
  have hregular : regularEntries { s with shared := s.shared.push e, regularCount := count } =
      s.regularEntries := rfl
  have hoverflowed : overflowedEntries { s with shared := s.shared.push e, regularCount := count } =
      s.overflowedEntries := rfl
  rw [loads, loads, regularLoads, regularLoads, overflowedLoads, overflowedLoads, hregular,
    hoverflowed, Array.toList_push, sharedLoads_append, sharedLoads, sharedLoads,
    Nat.zero_add, Array.length_toList, List.append_assoc, List.append_assoc, List.append_assoc,
    List.append_assoc]
  -- the shared slots lie in front, so in the layout the new one comes before both groups
  apply List.Perm.append_left
  rw [← List.append_assoc (groupLoads type .regular 0 _)]
  exact List.perm_append_comm

/-- What a section knows about a load of its history. A load that reaches a shared slot reaches the
one of its value. A slot of one's own is never within reach of an earlier equal constant: a sharable
constant has one only if it has overflowed, and then its value has no shared slot. -/
inductive Places (s : PoolSection) : Load → Prop where
  | shared {c : Constant} {slot : Nat} {merged : Bool} (hsharable : c.sharable = true)
      (hslot : s.slotOf c.value = some slot) :
    Places s ⟨c, .regular, .shared c.type slot, merged⟩
  | own {c : Constant} {access : Access} {index : Nat} (hindex : index < s.entries.size)
      (hclosed : access = .overflowed → s.overflowStart ≠ none)
      (hsharable : c.sharable = true → access = .overflowed ∧ s.slotOf c.value = none) :
    Places s ⟨c, access, .own c.type index, false⟩

/-- What is known stays known, as long as slots are founded only before the first overflow. -/
theorem Places.mono (hl : s.Places l) (hsize : s.entries.size ≤ s'.entries.size)
    (hclosed : s.overflowStart ≠ none → s'.overflowStart ≠ none)
    (hfound : ∀ value slot, s.slotOf value = some slot → s'.slotOf value = some slot)
    (hnone : ∀ value, s.overflowStart ≠ none → s.slotOf value = none → s'.slotOf value = none) :
    s'.Places l := by
  cases hl with
  | shared hsharable hslot => exact .shared hsharable (hfound _ _ hslot)
  | own hindex hoverflow hsharable =>
    refine .own (Nat.lt_of_lt_of_le hindex hsize) (fun h => hclosed (hoverflow h)) ?_
    intro h
    obtain ⟨haccess, hslot⟩ := hsharable h
    exact ⟨haccess, hnone _ (hoverflow haccess) hslot⟩

/-- A load reaches a shared slot only if it is there. -/
theorem Places.slot_lt (hl : s.Places l) {slot : Nat} (hslot : l.slot = .shared type slot) :
    slot < s.shared.size := by
  cases hl with
  | shared hsharable hfound =>
    obtain ⟨-, rfl⟩ := Slot.shared.inj hslot
    exact slotOf_lt hfound
  | own => cases hslot

/-- A slot that is founded belongs to its value, unless the value has one already. -/
theorem slotOf_found (s : PoolSection) (e : PoolEntry) (count : Nat) (value : UInt64) :
    slotOf { s with shared := s.shared.push e, regularCount := count } value =
      (s.slotOf value).or (if e.value == value then some s.shared.size else none) := by
  rw [slotOf, Array.findIdx?_push]
  rfl

/-- **The history of a section.** The loads are those that will be laid out, each where it was
announced to be, no two of them have founded the same slot, and the regular slots are counted. -/
structure Holds (s : PoolSection) (type : EntryType) (history : List Load) : Prop where
  loads_perm : history.Perm (s.loads type)
  start_le : ∀ start, s.overflowStart = some start → start ≤ s.entries.size
  type_eq : ∀ l ∈ history, l.constant.type = type
  places : ∀ l ∈ history, s.Places l
  distinct : history.Pairwise fun l l' => l.merged = false → l'.merged = false → l.slot ≠ l'.slot
  shared_le : s.shared.size ≤ s.regularCount
  count_eq : s.regularCount = history.countP fun l => l.access == .regular && !l.merged

namespace Holds

/-- Before the first constant. -/
theorem nil (reach : Nat) : Holds ⟨reach, 0, none, #[], #[]⟩ type [] where
  loads_perm := .nil
  start_le := by
    intro start hstart
    cases hstart
  type_eq := by
    intro l hl
    cases hl
  places := by
    intro l hl
    cases hl
  distinct := .nil
  shared_le := Nat.le_refl 0
  count_eq := rfl

/-- One more load. What an addition leaves alone is not looked at here: only where the new load
stands in the layout, what becomes of the slots, and how the counter moves. -/
theorem snoc (h : s.Holds type history) (htype : l.constant.type = type)
    (hperm : (s'.loads type).Perm (s.loads type ++ [l]))
    (hstart : ∀ start, s'.overflowStart = some start → start ≤ s'.entries.size)
    (hold : ∀ l' ∈ history, s'.Places l') (hnew : s'.Places l)
    (hfresh : l.merged = false → ∀ l' ∈ history, l'.merged = false → l'.slot ≠ l.slot)
    (hshared : s'.shared.size ≤ s'.regularCount)
    (hcount : s'.regularCount =
      s.regularCount + if l.access == .regular && !l.merged then 1 else 0) :
    s'.Holds type (history ++ [l]) where
  loads_perm := (h.loads_perm.append_right [l]).trans hperm.symm
  start_le := hstart
  type_eq := by
    intro l' hl'
    rcases List.mem_append.1 hl' with hl' | hl'
    · exact h.type_eq l' hl'
    · rw [List.mem_singleton.1 hl']
      exact htype
  places := by
    intro l' hl'
    rcases List.mem_append.1 hl' with hl' | hl'
    · exact hold l' hl'
    · rw [List.mem_singleton.1 hl']
      exact hnew
  distinct := by
    rw [List.pairwise_append]
    refine ⟨h.distinct, List.pairwise_singleton _ _, ?_⟩
    intro l' hl' last hlast hfirst hsecond
    rw [List.mem_singleton.1 hlast] at hsecond ⊢
    exact hfresh hsecond l' hl' hfirst
  shared_le := hshared
  count_eq := by
    rw [hcount, h.count_eq, List.countP_append, List.countP_singleton]

/-- The slot of a constant of its own is new. -/
theorem own_fresh (h : s.Holds type history) {l' : Load} (hl' : l' ∈ history) :
    l'.slot ≠ .own type s.entries.size := by
  intro hslot
  have hplaces := h.places l' hl'
  cases hplaces with
  | shared => cases hslot
  | own hindex =>
    cases hslot
    exact Nat.lt_irrefl _ hindex

/-- The slot that a constant founds is new. -/
theorem shared_fresh (h : s.Holds type history) {l' : Load} (hl' : l' ∈ history) :
    l'.slot ≠ .shared type s.shared.size := by
  intro hslot
  exact Nat.lt_irrefl _ ((h.places l' hl').slot_lt hslot)

/-- **Every addition keeps the history**, with the new load at its end. -/
theorem add (h : s.Holds type history) (hadds : s.Adds c s' l) (htype : c.type = type) :
    s'.Holds type (history ++ [l]) := by
  subst htype
  have hgrown : ∀ e, s.entries.size ≤ (s.entries.push e).size := by
    intro e
    rw [Array.size_push]
    exact Nat.le_succ _
  cases hadds with
  | merged slot hsharable hslot =>
    refine h.snoc rfl ?_ ?_ ?_ (.shared hsharable hslot) ?_ h.shared_le rfl
    · -- a merged load is the same with the regular and with the overflowed ones
      cases hstart : s.overflowStart with
      | none =>
        rw [← hstart]
        exact .of_eq (loads_push_open hstart _ _)
      | some start =>
        rw [← hstart]
        exact .of_eq (loads_push_closed _ hstart (h.start_le start hstart) _)
    · intro start hstart
      exact Nat.le_trans (h.start_le start hstart) (hgrown _)
    · intro l' hl'
      exact (h.places l' hl').mono (hgrown _) id (fun _ _ => id) (fun _ _ => id)
    · intro hfounded
      cases hfounded
  | founded hsharable hslot hopen =>
    refine h.snoc rfl (loads_found _ _ _ _) ?_ ?_ (.shared hsharable ?_) ?_ ?_ rfl
    · intro start hstart
      exact h.start_le start hstart
    · intro l' hl'
      refine (h.places l' hl').mono (Nat.le_refl _) id ?_ ?_
      · intro value slot hfound
        rw [slotOf_found, hfound]
        rfl
      · -- slots are founded before the first overflow only
        intro value hclosed
        exact absurd hopen hclosed
    · rw [slotOf_found, hslot, Constant.entry, if_pos (beq_self_eq_true _)]
      rfl
    · intro _ l' hl' _
      exact h.shared_fresh hl'
    · rw [Array.size_push]
      exact Nat.succ_le_succ h.shared_le
  | regular hsharable hopen =>
    refine h.snoc rfl (.of_eq (loads_push_open hopen _ _)) ?_ ?_ (.own ?_ ?_ ?_) ?_ ?_ rfl
    · intro start hstart
      exact Nat.le_trans (h.start_le start hstart) (hgrown _)
    · intro l' hl'
      exact (h.places l' hl').mono (hgrown _) id (fun _ _ => id) (fun _ _ => id)
    · rw [Array.size_push]
      exact Nat.lt_succ_self _
    · intro haccess
      cases haccess
    · intro hshared
      rw [hsharable] at hshared
      cases hshared
    · intro _ l' hl' _
      exact h.own_fresh hl'
    · exact Nat.le_succ_of_le h.shared_le
  | overflowed hslot =>
    have hle : s.overflowStart.getD s.entries.size ≤ s.entries.size := by
      cases hstart : s.overflowStart with
      | none => exact Nat.le_refl _
      | some start => exact h.start_le start hstart
    -- the first overflow closes the regular part where it ends
    have hloads := loads_push_closed c.type
      (s := { s with overflowStart := some (s.overflowStart.getD s.entries.size) }) rfl hle c.entry
    refine h.snoc rfl (.of_eq hloads) ?_ ?_ (.own ?_ ?_ ?_) ?_ h.shared_le rfl
    · intro start hstart
      cases hstart
      exact Nat.le_trans hle (hgrown _)
    · intro l' hl'
      refine (h.places l' hl').mono (hgrown _) ?_ (fun _ _ => id) (fun _ _ => id)
      intro _ hopen
      cases hopen
    · rw [Array.size_push]
      exact Nat.lt_succ_self _
    · intro _ hopen
      cases hopen
    · intro hsharable
      exact ⟨rfl, hslot hsharable⟩
    · intro _ l' hl' _
      exact h.own_fresh hl'

end Holds

end PoolSection

end CodeReloc
