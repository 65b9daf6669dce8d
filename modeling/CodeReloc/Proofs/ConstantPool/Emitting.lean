import CodeReloc.ConstantPool.Emission
import CodeReloc.Proofs.Assembler.Room
import CodeReloc.Proofs.ConstantPool.Layout

set_option autoImplicit false

/-!
# Emitting a pool

Emitting a pool of collected constants lays out its loads one after the other. Between two loads the
instructions from the start of the pool on are the values of the slots founded so far, and every
load that was laid out has been patched with the place of its slot in the finished layout (`Laid`),
although that layout is complete only at the end.

Main statement: `emit_settles`. An emission does not fault; if it answers, an empty pool has left
the code as it was, and any other one has been laid out from the next multiple of eight on.
-/

namespace CodeReloc

/-- The change that a load is patched with. -/
def ConstantPool.patchOf (p : ConstantPool) (l : Load) : Patch :=
  ⟨l.constant.position, p.offsetOf l.slot, l.access, l.constant.type⟩

/-- The bytes of the slots that loads found. -/
def layDown (loads : List Load) : List UInt8 :=
  (loads.filter fun l => !l.merged).flatMap fun l => leBytes 8 l.constant.value.toNat

theorem layDown_append (loads more : List Load) :
    layDown (loads ++ more) = layDown loads ++ layDown more := by
  rw [layDown, List.filter_append, List.flatMap_append]
  rfl

theorem layDown_merged {l : Load} (h : l.merged = true) : layDown [l] = [] := by
  rw [layDown, List.filter_cons_of_neg (by rw [h]; decide)]
  rfl

theorem layDown_unmerged {l : Load} (h : l.merged = false) :
    layDown [l] = leBytes 8 l.constant.value.toNat := by
  rw [layDown, List.filter_cons_of_pos (by rw [h]; rfl)]
  exact List.append_nil _

/-- A patcher that leaves alone where the instructions end and what they are from `base` on, as long
as it is asked to patch one of the given loads. What it remembers is up to it. -/
def Patcher.Keeps {σ : Type} (patcher : Patcher σ) (base : Nat) (positions : List Nat) : Prop :=
  ∀ change s a, change.position ∈ positions → a.Intact →
    (patcher change s a).2.Intact ∧ (patcher change s a).2.pc = a.pc ∧
      (patcher change s a).2.contents.code.drop base = a.contents.code.drop base

/-! ## Steps of an emission -/

namespace Emission

variable {σ α : Type} {e : Emission σ}

theorem here_gives (e : Emission σ) : Gives here e e.assembler.pc e := rfl

theorem currentPool_gives (e : Emission σ) : Gives currentPool e e.pool e := rfl

theorem beginAt_gives (base : Nat) (e : Emission σ) :
    Gives (beginAt base) e ()
      ⟨{ e.pool with emittedAt := some base }, e.assembler, e.state, e.patches⟩ := rfl

theorem patch_gives (patcher : Patcher σ) (change : Patch) (e : Emission σ) :
    Gives (patch patcher change) e ()
      ⟨e.pool, (patcher change e.state e.assembler).2, (patcher change e.state e.assembler).1,
        e.patches.push change⟩ := rfl

/-- A step that is done by the assembler leaves the rest alone. -/
theorem assemble_settles {x : Assembly α} {post : α → Assembler → Prop}
    (h : Settles x e.assembler post) :
    Settles (assemble x) e fun v e' =>
      e'.pool = e.pool ∧ e'.patches = e.patches ∧ post v e'.assembler := by
  obtain ⟨answer, a, hx, hends⟩ := h
  refine ⟨answer, ⟨e.pool, a, e.state, e.patches⟩, bind_eq_ok.2 ⟨_, hx, rfl⟩, ?_⟩
  intro v hv
  exact ⟨rfl, rfl, hends v hv⟩

/-- An offset within reach passes its check. -/
theorem checkReach_eq {s : PoolSection} {access : Access} {offset : Nat}
    (hbits : 0 < s.reach ∧ s.reach < 64) (h : access = .regular → offset < span s.reach) :
    checkReach s access offset = .ok () := by
  cases access with
  | overflowed => rfl
  | regular =>
    have hoffset := h rfl
    have hspan := span_lt s.reach
    refine bind_eq_ok.2 ⟨true, ?_, rfl⟩
    rw [reaches_eq hbits (by omega), decide_eq_true hoffset]

end Emission

/-! ## Loads that are laid out -/

/-- **In the middle of an emission.** The slots of `laid` are part of the code, and the loads of
`patched` have been patched with their offsets. -/
structure Laid {σ : Type} (p : ConstantPool) (base : Nat) (laid patched : List Load)
    (e : Emission σ) : Prop where
  intact : e.assembler.Intact
  pc_eq : e.assembler.pc = base + 8 * (founded laid).length
  code_eq : e.assembler.contents.code.drop base = layDown laid
  patches_eq : e.patches.toList = patched.map p.patchOf
  pool_eq : e.pool = { p with emittedAt := some base }

section

variable {σ α : Type} {reach : EntryType → Nat} {p : ConstantPool} {history : List Load}
variable {patcher : Patcher σ} {base : Nat} {done rest : List Load} {l : Load} {e : Emission σ}
variable {post : α → Emission σ → Prop}
variable (hcollected : p.Collected reach history)
variable (hkeeps : patcher.Keeps base (history.map fun l => l.constant.position))
variable (hreach : ∀ type, 0 < reach type ∧ reach type < 64)

include hcollected

include hreach in
/-- No load of the layout fails its check. -/
theorem checkReach_of_mem (hl : l ∈ p.loads) :
    Emission.checkReach (p.part l.constant.type) l.access (p.offsetOf l.slot) = .ok () := by
  apply Emission.checkReach_eq
  · rw [hcollected.reach_eq]
    exact hreach _
  · intro hregular
    rw [hcollected.reach_eq]
    exact hcollected.offsetOf_lt (hcollected.loads_perm.mem_iff.2 hl) hregular

include hkeeps

/-- A load that has been laid out is patched. -/
theorem Laid.patch (h : Laid p base (done ++ [l]) done e) (hl : l ∈ p.loads) {next : Emitting σ α}
    (hnext : ∀ e', Laid p base (done ++ [l]) (done ++ [l]) e' → Settles next e' post) :
    Settles (do Emission.patch patcher (p.patchOf l); next) e post := by
  have hposition : l.constant.position ∈ history.map fun l => l.constant.position :=
    List.mem_map_of_mem (hcollected.loads_perm.mem_iff.2 hl)
  obtain ⟨hintact, hpc, hcode⟩ := hkeeps (p.patchOf l) e.state e.assembler hposition h.intact
  refine .bind_gives (Emission.patch_gives _ _ _) (hnext _ ?_)
  constructor
  · exact hintact
  · rw [hpc, h.pc_eq]
  · rw [hcode, h.code_eq]
  · rw [Array.toList_push, h.patches_eq, List.map_append]
    rfl
  · exact h.pool_eq

include hreach

/-- **A load that founds a slot** lays its value down and is patched with where it lies. -/
theorem Laid.found (h : Laid p base done done e) (hsplit : p.loads = done ++ l :: rest)
    (hl : l.merged = false) (next : Nat → Emitting σ α)
    (hnext : ∀ e', Laid p base (done ++ [l]) (done ++ [l]) e' →
      Settles (next (p.offsetOf l.slot)) e' post) :
    Settles (do
      let offset := (← Emission.here) - base
      Emission.assemble (Assembler.emitWord64 l.constant.value)
      Emission.checkReach (p.part l.constant.type) l.access offset
      Emission.patch patcher ⟨l.constant.position, offset, l.access, l.constant.type⟩
      next offset) e post := by
  have hmem : l ∈ p.loads := by
    rw [hsplit]
    exact List.mem_append_right _ List.mem_cons_self
  have hhere : e.assembler.pc - base = p.offsetOf l.slot := by
    rw [h.pc_eq, hcollected.offsetOf_founder hsplit hl, Nat.add_sub_cancel_left]
  have hcheck := checkReach_of_mem hcollected hreach hmem
  refine .bind_gives (Emission.here_gives e) ?_
  rw [hhere]
  refine (Emission.assemble_settles (Assembler.emit_settles h.intact _)).bind ?_
  rintro _ mid ⟨hpool, hpatches, hintact, hcontents⟩
  rw [bytesOf_toByteArray] at hcontents
  refine .bind_gives (gives_lift.2 ⟨hcheck, rfl⟩) ?_
  have hmid : Laid p base (done ++ [l]) done mid := by
    constructor
    · exact hintact
    · rw [h.intact.pc_emit hintact.toFits hcontents, h.pc_eq, founded_append, founded_unmerged hl,
        length_leBytes, List.length_append, List.length_singleton]
      omega
    · -- the pool begins inside the instructions, so what is emitted comes behind its start
      have hinside : base ≤ e.assembler.contents.code.length := by
        rw [h.intact.length_code, h.pc_eq]
        exact Nat.le_add_right _ _
      rw [hcontents, Contents.drop_emit hinside, h.code_eq, layDown_append,
        layDown_unmerged hl]
    · rw [hpatches, h.patches_eq]
    · rw [hpool, h.pool_eq]
  exact hmid.patch hcollected hkeeps hmem hnext

/-- **A merged load** is patched with the slot that it shares. -/
theorem Laid.merge (h : Laid p base done done e) (hmem : l ∈ p.loads) (hl : l.merged = true)
    (hregular : l.access = .regular) {next : Emitting σ α}
    (hnext : ∀ e', Laid p base (done ++ [l]) (done ++ [l]) e' → Settles next e' post) :
    Settles (do
      Emission.checkReach (p.part l.constant.type) .regular (p.offsetOf l.slot)
      Emission.patch patcher
        ⟨l.constant.position, p.offsetOf l.slot, .regular, l.constant.type⟩
      next) e post := by
  have hcheck := checkReach_of_mem hcollected hreach hmem
  rw [hregular] at hcheck
  refine .bind_gives (gives_lift.2 ⟨hcheck, rfl⟩) ?_
  -- nothing is laid down, so the load counts as laid out already
  have hmid : Laid p base (done ++ [l]) done e := by
    constructor
    · exact h.intact
    · rw [h.pc_eq, founded_append, founded_merged hl, List.append_nil]
    · rw [h.code_eq, layDown_append, layDown_merged hl, List.append_nil]
    · exact h.patches_eq
    · exact h.pool_eq
  have hpatched := hmid.patch hcollected hkeeps hmem hnext
  rw [ConstantPool.patchOf, hregular] at hpatched
  exact hpatched

/-! ## Groups of loads -/

/-- The offsets that are remembered for the shared slots of a type. -/
def Remembers (p : ConstantPool) (type : EntryType) (offsets : Array Nat) : Prop :=
  ∀ slot, slot < (p.part type).shared.size →
    offsets[slot]?.getD 0 = p.offsetOf (.shared type slot)

/-- **Shared slots are laid out in order**, and their offsets are remembered. -/
theorem shared_settles {type : EntryType}
    {entries : List PoolEntry} {index : Nat} {offsets : Array Nat} {done rest : List Load}
    {e : Emission σ} (h : Laid p base done done e)
    (hsplit : p.loads = done ++ (sharedLoads type index entries ++ rest)) :
    Settles (Emission.shared patcher base type (p.part type) entries offsets) e
      fun offsets' e' =>
        Laid p base (done ++ sharedLoads type index entries)
            (done ++ sharedLoads type index entries) e' ∧
          offsets'.toList = offsets.toList ++
            (sharedLoads type index entries).map fun l => p.offsetOf l.slot := by
  induction entries generalizing index offsets done e with
  | nil =>
    refine .of_gives (gives_pure.2 ⟨rfl, rfl⟩) ?_
    rw [sharedLoads, List.append_nil, List.map_nil, List.append_nil]
    exact ⟨h, rfl⟩
  | cons entry entries ih =>
    rw [sharedLoads, List.cons_append] at hsplit
    rw [Emission.shared]
    refine h.found (l := ⟨entry.constant type, .regular, .shared type index, false⟩)
      hcollected hkeeps hreach hsplit rfl
      (fun offset => Emission.shared patcher base type (p.part type) entries (offsets.push offset))
      ?_
    intro e' he'
    rw [List.append_cons] at hsplit
    refine (ih he' hsplit).mono ?_
    rintro offsets' e'' ⟨he'', hoffsets⟩
    rw [sharedLoads, List.append_cons, List.map_cons]
    refine ⟨he'', ?_⟩
    rw [hoffsets, Array.toList_push, List.append_assoc]
    rfl

/-- **A group is laid out in order.** Merged loads are patched with the offsets remembered. -/
theorem group_settles {type : EntryType} {access : Access}
    {entries : List PoolEntry} {index : Nat} {offsets : Array Nat}
    (hoffsets : Remembers p type offsets) {done rest : List Load} {e : Emission σ}
    (h : Laid p base done done e)
    (hsplit : p.loads = done ++ (groupLoads type access index entries ++ rest)) :
    Settles (Emission.group patcher base type (p.part type) offsets access entries) e
      fun _ e' =>
        Laid p base (done ++ groupLoads type access index entries)
          (done ++ groupLoads type access index entries) e' := by
  induction entries generalizing index done e with
  | nil =>
    refine .of_gives (gives_pure.2 ⟨rfl, rfl⟩) ?_
    rw [groupLoads, List.append_nil]
    exact h
  | cons entry entries ih =>
    rw [groupLoads, List.cons_append] at hsplit
    have hmem : entry.load type access index ∈ p.loads := by
      rw [hsplit]
      exact List.mem_append_right _ List.mem_cons_self
    rw [Emission.group]
    cases hslot : entry.slot with
    | none =>
      have hload : entry.load type access index =
          ⟨entry.constant type, access, .own type index, false⟩ := by
        rw [PoolEntry.load, hslot]
      rw [hload] at hsplit
      refine h.found (l := ⟨entry.constant type, access, .own type index, false⟩)
        hcollected hkeeps hreach hsplit rfl
        (fun _ => Emission.group patcher base type (p.part type) offsets access entries) ?_
      intro e' he'
      rw [List.append_cons] at hsplit
      refine (ih he' hsplit).mono ?_
      intro _ e'' he''
      rw [groupLoads, hload, List.append_cons]
      exact he''
    | some slot =>
      have hload : entry.load type access index =
          ⟨entry.constant type, .regular, .shared type slot, true⟩ := by
        rw [PoolEntry.load, hslot]
      rw [hload] at hsplit hmem
      -- a merged load names a slot that is there
      have hlt : slot < (p.part type).shared.size :=
        (hcollected.places (hcollected.loads_perm.mem_iff.2 hmem)).slot_lt rfl
      dsimp only
      rw [hoffsets slot hlt]
      refine h.merge (l := ⟨entry.constant type, .regular, .shared type slot, true⟩)
        hcollected hkeeps hreach hmem rfl rfl ?_
      intro e' he'
      rw [List.append_cons] at hsplit
      refine (ih he' hsplit).mono ?_
      intro _ e'' he''
      rw [groupLoads, hload, List.append_cons]
      exact he''

/-- **The regular constants of a type** are laid out, and its shared slots are remembered. -/
theorem regular_settles (type : EntryType)
    (h : Laid p base done done e)
    (hsplit : p.loads = done ++ ((p.part type).regularLoads type ++ rest)) :
    Settles (Emission.regular patcher base type (p.part type)) e fun offsets e' =>
      Laid p base (done ++ (p.part type).regularLoads type)
          (done ++ (p.part type).regularLoads type) e' ∧
        Remembers p type offsets := by
  rw [PoolSection.regularLoads, List.append_assoc] at hsplit
  refine (shared_settles hcollected hkeeps hreach h hsplit).bind ?_
  rintro offsets mid ⟨hmid, hoffsets⟩
  have hremembers : Remembers p type offsets := by
    intro slot hslot
    rw [← Array.getElem?_toList, hoffsets, List.nil_append, List.getElem?_map,
      getElem?_sharedLoads, Array.getElem?_toList, Array.getElem?_eq_getElem hslot, Nat.zero_add]
    rfl
  rw [← List.append_assoc] at hsplit
  refine (group_settles hcollected hkeeps hreach hremembers hmid hsplit).bind ?_
  intro _ e' he'
  refine .of_gives (gives_pure.2 ⟨rfl, rfl⟩) ⟨?_, hremembers⟩
  rw [PoolSection.regularLoads, ← List.append_assoc]
  exact he'

/-- **The overflowed constants of a type** are laid out, if there are any. -/
theorem overflowed_settles {type : EntryType} {offsets : Array Nat}
    (hoffsets : Remembers p type offsets) (h : Laid p base done done e)
    (hsplit : p.loads = done ++ ((p.part type).overflowedLoads type ++ rest)) :
    Settles (if (p.part type).overflows = true then
        Emission.overflowed patcher base type (p.part type) offsets else pure ()) e fun _ e' =>
      Laid p base (done ++ (p.part type).overflowedLoads type)
        (done ++ (p.part type).overflowedLoads type) e' := by
  split
  · exact group_settles hcollected hkeeps hreach hoffsets h hsplit
  · rename_i hopen
    refine .of_gives (gives_pure.2 ⟨rfl, rfl⟩) ?_
    rw [PoolSection.overflowedLoads_open hopen, List.append_nil]
    exact h

omit hcollected hkeeps hreach in
/-- Between slots the instructions end on a multiple of eight, so there is nothing to align. -/
theorem align_settles (h : Laid p base done done e) (hbase : base % 8 = 0) :
    Settles (Emission.assemble (Assembler.align 8)) e fun _ e' => Laid p base done done e' := by
  have haligned : (8 - e.assembler.pc % 8) % 8 = 0 := by
    rw [h.pc_eq]
    omega
  have halign := Assembler.align_settles h.intact 8 (by decide) (by decide)
  refine (Emission.assemble_settles halign).mono ?_
  rintro _ e' ⟨hpool, hpatches, hintact, hcontents⟩
  rw [haligned, List.replicate_zero] at hcontents
  constructor
  · exact hintact
  · rw [h.intact.pc_emit hintact.toFits hcontents, h.pc_eq]
    rfl
  · rw [hcontents, Contents.emit_nil]
    exact h.code_eq
  · rw [hpatches, h.patches_eq]
  · rw [hpool, h.pool_eq]

/-- **The whole pool** is laid out in the order of its loads. -/
theorem layOut_settles (h : Laid p base [] [] e) (hbase : base % 8 = 0) :
    Settles (Emission.layOut patcher base p) e fun _ e' => Laid p base p.loads p.loads e' := by
  refine (regular_settles hcollected hkeeps hreach .double h rfl).bind ?_
  rintro doubles mid ⟨hmid, hdoubles⟩
  refine (regular_settles hcollected hkeeps hreach .intPtr hmid rfl).bind ?_
  rintro pointers mid' ⟨hmid', hpointers⟩
  rw [List.nil_append] at hmid'
  have hfront : p.loads = (p.part .double).regularLoads .double ++
      (p.part .intPtr).regularLoads .intPtr ++ ((p.part .double).overflowedLoads .double ++
        (p.part .intPtr).overflowedLoads .intPtr) := (List.append_assoc _ _ _).symm
  generalize (p.part .double).regularLoads .double ++
    (p.part .intPtr).regularLoads .intPtr = front at hmid' hfront
  -- the overflowed pointers come last, whether or not doubles have overflowed
  have hlast : ∀ e', Laid p base (front ++ (p.part .double).overflowedLoads .double)
        (front ++ (p.part .double).overflowedLoads .double) e' →
      Settles (if p.intPtrs.overflows = true then
          Emission.overflowed patcher base .intPtr p.intPtrs pointers else pure ()) e'
        fun _ e'' => Laid p base p.loads p.loads e'' := by
    intro e' he'
    have hall : p.loads = front ++ (p.part .double).overflowedLoads .double ++
        ((p.part .intPtr).overflowedLoads .intPtr ++ []) := by
      rw [hfront, List.append_nil, List.append_assoc]
    have hoverflowed := overflowed_settles hcollected hkeeps hreach hpointers he' hall
    rw [List.append_nil] at hall
    rw [← hall] at hoverflowed
    exact hoverflowed
  dsimp only
  split
  · rename_i hclosed
    change (p.part .double).overflows = true at hclosed
    refine (align_settles hmid' hbase).bind ?_
    intro _ mid'' hmid''
    have hoverflowed := overflowed_settles hcollected hkeeps hreach hdoubles hmid'' hfront
    rw [if_pos hclosed] at hoverflowed
    refine hoverflowed.bind ?_
    intro _ e' he'
    exact hlast e' he'
  · rename_i hopen
    change ¬ (p.part .double).overflows = true at hopen
    rw [PoolSection.overflowedLoads_open hopen, List.append_nil] at hlast
    exact hlast mid' hmid'

/-- **Emission of collected constants.** An empty pool is marked as emitted and leaves the assembler
alone; any other one is laid out from the next multiple of eight on. -/
theorem emit_settles {a : Assembler} (ha : a.Intact) (hbase : base = (a.pc + 7) / 8 * 8) (s : σ) :
    Settles (Emission.emit patcher) ⟨p, a, s, #[]⟩ fun answer e' =>
      match answer with
      | none => p.isEmpty = true ∧ e'.assembler = a ∧ e'.state = s ∧ e'.patches = #[]
      | some start => p.isEmpty = false ∧ start = base ∧ Laid p base p.loads p.loads e' := by
  have hfresh : (!p.isEmitted) = true := by
    rw [ConstantPool.isEmitted, hcollected.emittedAt_eq]
    rfl
  refine .bind_gives (Emission.currentPool_gives _) ?_
  dsimp only
  rw [if_pos hfresh]
  cases hempty : p.isEmpty with
  | true =>
    refine .bind_gives (Emission.here_gives _) ?_
    refine .bind_gives (Emission.beginAt_gives _ _) ?_
    refine .bind_gives (Emission.currentPool_gives _) ?_
    have hnone : ConstantPool.isEmpty { p with emittedAt := some a.pc } = true := hempty
    rw [if_pos hnone]
    exact .of_gives (gives_pure.2 ⟨rfl, rfl⟩) ⟨rfl, rfl, rfl, rfl⟩
  | false =>
    -- zeros are emitted up to the next multiple of eight, and the pool begins there
    have halign := Assembler.align_settles ha 8 (by decide) (by decide)
    change Settles (do Emission.assemble (Assembler.align 8); _) _ _
    refine (Emission.assemble_settles halign).bind ?_
    rintro _ mid ⟨hpool, hpatches, hintact, hcontents⟩
    have hpc : mid.assembler.pc = base := by
      rw [ha.pc_emit hintact.toFits hcontents, List.length_replicate, hbase]
      omega
    refine .bind_gives (Emission.here_gives _) ?_
    refine .bind_gives (Emission.beginAt_gives _ _) ?_
    rw [hpc]
    have hstart : Laid p base [] [] ⟨{ mid.pool with emittedAt := some base }, mid.assembler,
        mid.state, mid.patches⟩ := by
      constructor
      · exact hintact
      · exact hpc
      · exact List.drop_of_length_le (Nat.le_of_eq (hintact.length_code.trans hpc))
      · rw [hpatches]
        rfl
      · rw [hpool]
    -- the layout was settled when the constants were added, and the mark does not change it
    have hlaid := layOut_settles hcollected hkeeps hreach hstart (by omega)
    refine hlaid.bind ?_
    intro _ e' he'
    refine .bind_gives (Emission.currentPool_gives _) ?_
    have hsome : ConstantPool.isEmpty { p with emittedAt := some base } = false := hempty
    rw [he'.pool_eq, hsome]
    exact .of_gives (gives_pure.2 ⟨rfl, rfl⟩) ⟨rfl, rfl, he'⟩

end

end CodeReloc
