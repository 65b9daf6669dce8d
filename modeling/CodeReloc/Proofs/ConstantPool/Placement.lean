import CodeReloc.Proofs.ConstantPool.Patching

set_option autoImplicit false

/-!
# Where constants end up

What the users of a pool see of it: for every constant the access that was announced when it was
added and the offset that its load was patched with in the end (`Placement`). A pool that is laid
out has the value of every constant at its offset, regular offsets are within reach, equal sharable
constants share their bytes unless they have overflowed, and there are no other bytes (`LaidOut`).

Main statement: `emit_of_addAll`, from the first constant to the last patch. The patches are the
calls of the patcher, in order, and lead to the code that is left behind.
-/

namespace CodeReloc

/-- A constant with its access and its offset from the start of the pool. -/
structure Placement where
  constant : Constant
  access : Access
  offset : Nat

/-- What the load of a constant is patched with. -/
def Placement.patch (q : Placement) : Patch :=
  ⟨q.constant.position, q.offset, q.access, q.constant.type⟩

/-- The access of the first sharable constant with the type and the value of a given one. -/
def sharedAccess (placements : List Placement) (c : Constant) : Option Access :=
  (placements.find? fun q =>
    q.constant.sharable && q.constant.type == c.type && q.constant.value == c.value).map
      Placement.access

/-- **A pool that is part of the code from `base` on.** Every constant has been patched in once, its
value lies where its load looks for it, and nothing else lies behind `base`. -/
structure LaidOut (reach : EntryType → Nat) (base : Nat) (placements : List Placement)
    (patches : List Patch) (a : Assembler) : Prop where
  patches_perm : patches.Perm (placements.map Placement.patch)
  value_eq : ∀ q ∈ placements,
    (a.contents.code.drop (base + q.offset)).take 8 = leBytes 8 q.constant.value.toNat
  offset_lt : ∀ q ∈ placements, q.access = .regular → q.offset < 2 ^ reach q.constant.type
  offset_eq_iff : ∀ (i j : Nat) (q q' : Placement), i ≠ j → placements[i]? = some q →
    placements[j]? = some q' →
      (q.offset = q'.offset ↔ q.constant.type = q'.constant.type ∧
        q.constant.sharable = true ∧ q'.constant.sharable = true ∧
          q.constant.value = q'.constant.value ∧
            sharedAccess placements q.constant = some .regular)
  pc_eq : a.pc = base + 8 * (placements.map Placement.offset).dedup.length

/-! ## Reading off the layout -/

/-- The bytes at the place of a slot are those of a load that founded it. -/
theorem layDown_at {loads : List Load} {slot : Slot} (h : slot ∈ founded loads) :
    ∃ l ∈ loads, l.slot = slot ∧
      ((layDown loads).drop (8 * (founded loads).idxOf slot)).take 8 =
        leBytes 8 l.constant.value.toNat := by
  induction loads with
  | nil => cases h
  | cons l rest ih =>
    have hfounded := founded_append [l] rest
    have hlaid := layDown_append [l] rest
    rw [List.singleton_append] at hfounded hlaid
    cases hmerged : l.merged with
    | true =>
      -- a merged load adds neither a slot nor bytes
      rw [founded_merged hmerged, List.nil_append] at hfounded
      rw [layDown_merged hmerged, List.nil_append] at hlaid
      rw [hfounded] at h
      obtain ⟨l', hl', hslot, hbytes⟩ := ih h
      rw [hfounded, hlaid]
      exact ⟨l', List.mem_cons_of_mem _ hl', hslot, hbytes⟩
    | false =>
      rw [founded_unmerged hmerged, List.singleton_append] at hfounded
      rw [layDown_unmerged hmerged] at hlaid
      rw [hfounded, hlaid]
      by_cases hslot : l.slot = slot
      · -- the first bytes are those of this load
        refine ⟨l, List.mem_cons_self, hslot, ?_⟩
        rw [hslot, List.idxOf_cons_self, Nat.mul_zero, List.drop_zero]
        exact List.take_left' (length_leBytes 8 _)
      · rw [hfounded] at h
        have hrest : slot ∈ founded rest := by
          rcases List.mem_cons.1 h with heq | hmem
          · exact absurd heq.symm hslot
          · exact hmem
        obtain ⟨l', hl', hslot', hbytes⟩ := ih hrest
        refine ⟨l', List.mem_cons_of_mem _ hl', hslot', ?_⟩
        -- every slot behind this load lies eight bytes further on
        have hnext : 8 * (founded rest).idxOf slot + 8 =
            (leBytes 8 l.constant.value.toNat).length + 8 * (founded rest).idxOf slot := by
          rw [length_leBytes, Nat.add_comm]
        rw [List.idxOf_cons_ne _ hslot, Nat.mul_succ, hnext, List.drop_length_add_append]
        exact hbytes

/-- Where a load finds its constant. -/
def ConstantPool.placementOf (p : ConstantPool) (l : Load) : Placement :=
  ⟨l.constant, l.access, p.offsetOf l.slot⟩

section

variable {reach : EntryType → Nat} {p : ConstantPool} {history : List Load}

/-- Slots are as far apart as they are different. -/
theorem ConstantPool.Collected.offsetOf_eq_iff (h : p.Collected reach history) {l l' : Load}
    (hl : l ∈ history) : p.offsetOf l.slot = p.offsetOf l'.slot ↔ l.slot = l'.slot := by
  rw [← List.idxOf_inj (h.mem_founded hl), ConstantPool.offsetOf, ConstantPool.offsetOf]
  omega

/-- There are as many offsets as slots. -/
theorem ConstantPool.Collected.length_offsets (h : p.Collected reach history) :
    (history.map fun l => p.offsetOf l.slot).dedup.length = (founded p.loads).length := by
  have hinjective : Function.Injective fun index : Nat => 8 * index := by
    intro index index' heq
    exact Nat.eq_of_mul_eq_mul_left (by decide) heq
  have hslots : (history.map fun l => p.offsetOf l.slot).dedup.Perm
      ((List.range (founded p.loads).length).map fun index => 8 * index) := by
    rw [List.perm_ext_iff_of_nodup (List.nodup_dedup _) (List.nodup_range.map hinjective)]
    intro offset
    rw [List.mem_dedup, List.mem_map, List.mem_map]
    constructor
    · rintro ⟨l, hl, rfl⟩
      refine ⟨_, List.mem_range.2 (List.idxOf_lt_length_of_mem (h.mem_founded hl)), rfl⟩
    · rintro ⟨index, hindex, rfl⟩
      -- the slot at an index was founded by a load of the history
      have hlt := List.mem_range.1 hindex
      obtain ⟨l, hl, -, hslot⟩ := mem_founded_iff.1 (List.getElem_mem hlt)
      refine ⟨l, h.loads_perm.mem_iff.2 hl, ?_⟩
      rw [hslot, ConstantPool.offsetOf, h.founded_nodup.idxOf_getElem]
  rw [hslots.length_eq, List.length_map, List.length_range]

/-- The first sharable constant is found among the placements as among the loads. -/
theorem ConstantPool.sharedAccess_map (p : ConstantPool) (history : List Load) (c : Constant) :
    sharedAccess (history.map p.placementOf) c =
      ConstantPool.Collected.firstAccess history c.type c.value := by
  rw [sharedAccess, ConstantPool.Collected.firstAccess, List.find?_map, Option.map_map]
  rfl

/-- **What is laid out is laid out as it was announced.** -/
theorem ConstantPool.Collected.laidOut {σ : Type} (h : p.Collected reach history) {base : Nat}
    {e : Emission σ} (he : Laid p base p.loads p.loads e) :
    LaidOut reach base (history.map p.placementOf) e.patches.toList e.assembler where
  patches_perm := by
    rw [he.patches_eq, List.map_map]
    exact (h.loads_perm.map p.patchOf).symm
  value_eq := by
    intro q hq
    obtain ⟨l, hl, rfl⟩ := List.mem_map.1 hq
    obtain ⟨l', hl', hslot, hbytes⟩ := layDown_at (h.mem_founded hl)
    have hvalue := h.value_eq (h.loads_perm.mem_iff.2 hl') hl hslot
    rw [← List.drop_drop, he.code_eq]
    change ((layDown p.loads).drop (p.offsetOf l.slot)).take 8 = leBytes 8 l.constant.value.toNat
    rw [← hvalue]
    exact hbytes
  offset_lt := by
    intro q hq hregular
    obtain ⟨l, hl, rfl⟩ := List.mem_map.1 hq
    exact Nat.lt_of_lt_of_le (h.offsetOf_lt hl hregular) (span_le _)
  offset_eq_iff := by
    intro i j q q' hij hi hj
    rw [List.getElem?_map, Option.map_eq_some_iff] at hi hj
    obtain ⟨l, hi, rfl⟩ := hi
    obtain ⟨l', hj, rfl⟩ := hj
    rw [p.sharedAccess_map]
    exact (h.offsetOf_eq_iff (List.mem_of_getElem? hi)).trans (h.slot_eq_iff hij hi hj)
  pc_eq := by
    rw [he.pc_eq, ← h.length_offsets, List.map_map]
    rfl

end

/-- A patcher that writes the offset into the first byte of the load and counts the loads. -/
def offsetPatcher : Patcher Nat := fun change count a =>
  (count + 1, a.overwrite change.position [UInt8.ofNat change.offset].toByteArray)

theorem offsetPatcher_keeps {base : Nat} {positions : List Nat}
    (h : ∀ position ∈ positions, position < base) : offsetPatcher.Keeps base positions := by
  intro change count a hposition ha
  have hlt := h _ hposition
  obtain ⟨hfits, hcontents⟩ := Assembler.overwrite_contents ha.toFits change.position
    [UInt8.ofNat change.offset].toByteArray
  rw [offsetPatcher]
  refine ⟨ha.of_contents hfits ?_, Assembler.overwrite_pc _ _ _, ?_⟩
  · rw [hcontents]
    rfl
  · rw [hcontents]
    apply drop_layOver
    rw [bytesOf_toByteArray]
    exact hlt

/-- **A pool from the first constant to the last patch.** Constants can be added in any order, and
none of the checks on the way fails. If the emission answers, it has laid out a pool exactly if
there were constants, from the next multiple of eight on, and its patches are the calls that lead
from the first assembler to the last. -/
theorem emit_of_addAll {σ : Type} (reach : EntryType → Nat)
    (hreach : ∀ type, 1 ≤ reach type ∧ reach type ≤ 63) (constants : List Constant)
    {a : Assembler} (ha : a.Intact) {patcher : Patcher σ} (s : σ)
    (hkeeps : patcher.Keeps ((a.pc + 7) / 8 * 8) (constants.map Constant.position)) :
    ∃ accesses pool,
      (ConstantPool.new (reach .intPtr) (reach .double)).addAll constants = .ok (accesses, pool) ∧
        Settles (Emission.emit patcher) ⟨pool, a, s, #[]⟩ fun answer e =>
          match answer with
          | none => constants = [] ∧ e.assembler = a ∧ e.state = s ∧ e.patches = #[]
          | some base => constants ≠ [] ∧ base = (a.pc + 7) / 8 * 8 ∧
            ∃ placements : List Placement, placements.map Placement.constant = constants ∧
              placements.map Placement.access = accesses ∧
                LaidOut reach base placements e.patches.toList e.assembler ∧
                  Leads patcher (s, a) e.patches.toList (e.state, e.assembler) := by
  have hbits : ∀ type, 0 < reach type ∧ reach type < 64 := by
    intro type
    exact ⟨(hreach type).1, Nat.lt_succ_of_le (hreach type).2⟩
  obtain ⟨history, pool, hadd, hconstants, hcollected⟩ :=
    (ConstantPool.Collected.new reach).addAll hbits constants
  rw [List.nil_append] at hcollected
  refine ⟨_, pool, hadd, ?_⟩
  have hempty : pool.isEmpty = true ↔ constants = [] := by
    rw [hcollected.isEmpty_iff, ← hconstants, List.map_eq_nil_iff]
  have hpositions : constants.map Constant.position =
      history.map fun l => l.constant.position := by
    rw [← hconstants, List.map_map]
    rfl
  rw [hpositions] at hkeeps
  refine (emit_settles hcollected hkeeps hbits ha rfl s).answered.mono ?_
  rintro answer e ⟨hemit, hends⟩
  cases answer with
  | none =>
    obtain ⟨hnone, hassembler, hstate, hpatches⟩ := hends
    exact ⟨hempty.1 hnone, hassembler, hstate, hpatches⟩
  | some start =>
    obtain ⟨hsome, rfl, hlaid⟩ := hends
    refine ⟨?_, rfl, history.map pool.placementOf, ?_, ?_, hcollected.laidOut hlaid, ?_⟩
    · intro hnone
      rw [hempty.2 hnone] at hsome
      cases hsome
    · rw [List.map_map, ← hconstants]
      rfl
    · rw [List.map_map]
      rfl
    · -- the log was empty at first, so what was added to it is all of it
      obtain ⟨calls, hcalls, hleads⟩ := Emission.emit_leads hemit
      rw [List.nil_append] at hcalls
      rw [hcalls]
      exact hleads

/-- A merged double, and a pointer that has overflowed behind it. -/
theorem emit_of_addAll_merged :
    ∃ pool e,
      (ConstantPool.new 3 3).addAll
          [⟨0, 5, true, .double⟩, ⟨2, 7, false, .intPtr⟩, ⟨4, 5, true, .double⟩] =
        .ok ([.regular, .overflowed, .regular], pool) ∧
      Gives (Emission.emit offsetPatcher)
        ⟨pool, ⟨.standard, copies 56 0, 7, .new 56, #[], .start⟩, 0, #[]⟩ (some 8) e ∧
      e.patches.toList =
        [⟨0, 0, .regular, .double⟩, ⟨4, 0, .regular, .double⟩, ⟨2, 8, .overflowed, .intPtr⟩] ∧
      e.state = 3 ∧
      ∃ placements : List Placement,
        placements.map Placement.access = [.regular, .overflowed, .regular] ∧
          LaidOut (fun _ => 3) 8 placements e.patches.toList e.assembler ∧
            Leads offsetPatcher (0, ⟨.standard, copies 56 0, 7, .new 56, #[], .start⟩)
              e.patches.toList (e.state, e.assembler) := by
  have ha : (⟨.standard, copies 56 0, 7, .new 56, #[], .start⟩ : Assembler).Intact := by
    refine ⟨⟨?_, ?_⟩, .start⟩
    · decide
    · rw [size_copies]
      exact Nat.le_of_eq rfl
  have hrun : ((ConstantPool.new 3 3).addAll
        [⟨0, 5, true, .double⟩, ⟨2, 7, false, .intPtr⟩, ⟨4, 5, true, .double⟩] >>=
      fun added => Emission.emit offsetPatcher
        ⟨added.2, ⟨.standard, copies 56 0, 7, .new 56, #[], .start⟩, 0, #[]⟩ >>=
      fun ended => .ok (added.1, ended.1, ended.2.state, ended.2.patches.toList)) =
    .ok ([.regular, .overflowed, .regular], .ok (some 8), 3,
      [⟨0, 0, .regular, .double⟩, ⟨4, 0, .regular, .double⟩, ⟨2, 8, .overflowed, .intPtr⟩]) := by
    decide +kernel
  obtain ⟨⟨accesses, pool⟩, hadd, hrest⟩ := bind_eq_ok.1 hrun
  obtain ⟨⟨answer, e⟩, hemit, hends⟩ := bind_eq_ok.1 hrest
  obtain ⟨haccesses, hanswer⟩ := Prod.mk.inj (Except.ok.inj hends)
  obtain ⟨rfl, hlogged⟩ := Prod.mk.inj hanswer
  obtain ⟨hcount, hpatches⟩ := Prod.mk.inj hlogged
  subst haccesses
  have hreach : ∀ _ : EntryType, 1 ≤ 3 ∧ 3 ≤ 63 := fun _ => by decide
  obtain ⟨_, _, hadd', hsettles⟩ := emit_of_addAll (fun _ => 3) hreach
    [⟨0, 5, true, .double⟩, ⟨2, 7, false, .intPtr⟩, ⟨4, 5, true, .double⟩] ha 0
    (offsetPatcher_keeps (by decide))
  cases hadd.symm.trans hadd'
  obtain ⟨-, -, placements, -, hannounced, hlaid, hleads⟩ := hsettles.of_answer hemit
  exact ⟨pool, e, hadd, hemit, hpatches, hcount, placements, hannounced, hlaid, hleads⟩

end CodeReloc
