import CodeReloc.Proofs.Assembler.Recorded
import CodeReloc.Proofs.ConstantPool.Placement

set_option autoImplicit false

/-!
# Emitting a pool more than once

A pool is marked as part of the code before its slots are laid down. When an emission is refused
half-way, the mark stays: a later emission answers where the pool begins, although slots are missing
and loads have not been patched (`emit_again_incomplete`). Where no emission has been refused after
the mark, a pool that is emitted is complete, whatever is asked of the assembler in between
(`emitted_complete`). All its loads were patched by one emission then (`Origin`).
-/

namespace CodeReloc

/-! ## Bytes that are left alone -/

/-- In front of the bytes that are laid over it, the code stays as it is. -/
theorem take_layOver (code bytes : List UInt8) {offset n : Nat} (h : n ≤ offset) :
    (layOver code offset bytes).take n = code.take n := by
  apply List.ext_getElem?
  intro i
  by_cases hi : i < n
  · rw [List.getElem?_take_of_lt hi, List.getElem?_take_of_lt hi, layOver]
    by_cases hlength : i < code.length
    · rw [List.getElem?_take_of_lt hlength, getElem?_lay _ _ _ hlength, if_neg (by omega)]
    · rw [List.getElem?_take_eq_none (by omega), List.getElem?_eq_none (by omega)]
  · rw [List.getElem?_take_eq_none (by omega), List.getElem?_take_eq_none (by omega)]

/-- It lays nothing over the bytes from `start` to `stop`. -/
def Operation.Spares (operation : Operation) (start stop : Nat) : Prop :=
  match operation with
  | overwrite offset bytes => offset + bytes.size ≤ start ∨ stop ≤ offset
  | _ => True

/-- **Instructions that are spared stay as they are**, whatever the operation ends in. -/
theorem Operation.Spares.code_eq {operation : Operation} {start stop : Nat} {a a' : Assembler}
    {answer : Except LimitExceeded Unit} (h : operation.Spares start stop) (ha : a.Intact)
    (hstop : stop ≤ a.contents.code.length) (hrun : Ends operation.run a answer a') :
    stop ≤ a'.contents.code.length ∧
      (a'.contents.code.take stop).drop start = (a.contents.code.take stop).drop start := by
  obtain ⟨-, houtcome⟩ := run_outcome ha hrun
  obtain ⟨done, hdone, hcarries⟩ := houtcome.carries
  refine Contents.afterAll_induction (P := fun c => stop ≤ c.code.length ∧
    (c.code.take stop).drop start = (a.contents.code.take stop).drop start) ?_ ⟨hstop, rfl⟩
    hcarries.after_eq
  rintro x hx c c' ⟨hinside, hcode⟩ hafter
  have hlength := Contents.length_code_after hafter
  refine ⟨by omega, ?_⟩
  rw [← hcode]
  cases hoverwrite : x.isOverwrite with
  | false =>
    rw [Contents.code_after hoverwrite hafter, List.take_append_of_le_length hinside]
  | true =>
    cases makes_of_mem_effects (hdone.subset hx) with
    | keepGap | emit | record | addComment | setPositions => cases hoverwrite
    | overwrite offset bytes hoperation =>
      cases hafter
      rw [hoperation] at h
      rcases h with hbefore | hbehind
      · rw [List.drop_take, List.drop_take, Contents.overwrite,
          drop_layOver _ _ (by rw [length_bytesOf]; exact hbefore)]
      · rw [Contents.overwrite, take_layOver _ _ hbehind]

/-- The bytes of the slots of a pool. -/
def ConstantPool.size (p : ConstantPool) : Nat := 8 * (founded p.loads).length

/-! ## Emissions -/

namespace Emission

variable {σ : Type} {e : Emission σ} {patcher : Patcher σ}

/-- A pool that is marked is not laid out again. -/
theorem emit_of_marked (patcher : Patcher σ) (h : e.pool.isEmitted = true) :
    Gives (emit patcher) e (if e.pool.isEmpty then none else e.pool.emittedAt) e := by
  refine gives_bind.2 ⟨_, _, currentPool_gives e, ?_⟩
  dsimp only
  rw [h]
  exact gives_bind.2 ⟨_, _, currentPool_gives e, gives_pure.2 ⟨rfl, rfl⟩⟩

/-- What the emission of a pool comes to that is neither marked nor empty. -/
theorem emit_of_unmarked (patcher : Patcher σ) (h : e.pool.isEmitted = false)
    (hsome : e.pool.isEmpty = false) :
    emit patcher e = (do
      assemble (Assembler.align 8)
      let base ← here
      beginAt base
      layOut patcher base e.pool
      let p ← currentPool
      return if p.isEmpty then none else p.emittedAt : Emitting σ (Option Nat)) e := by
  rw [emit, Computation.bind_apply, currentPool_gives e]
  change (if (!e.pool.isEmitted) = true then _ else (_ : Emitting σ (Option Nat))) e = _
  rw [h, hsome]
  rfl

/-- An empty pool is marked, and nothing is laid out. -/
theorem emit_of_empty (patcher : Patcher σ) (h : e.pool.isEmpty = true) :
    ∃ e', Gives (emit patcher) e none e' ∧ e'.pool.isEmpty = true := by
  cases hmark : e.pool.isEmitted with
  | true =>
    have hgives := emit_of_marked patcher hmark
    rw [if_pos h] at hgives
    exact ⟨e, hgives, h⟩
  | false =>
    refine ⟨⟨{ e.pool with emittedAt := some e.assembler.pc }, e.assembler, e.state, e.patches⟩,
      ?_, h⟩
    rw [Gives, emit, Computation.bind_apply, currentPool_gives e]
    change (if (!e.pool.isEmitted) = true then _ else (_ : Emitting σ (Option Nat))) e = _
    rw [hmark, h]
    change Except.ok (Except.ok (if e.pool.isEmpty = true then none else _), _) = _
    rw [if_pos h]

section

variable {base : Nat} {type : EntryType} {s : PoolSection} {offsets : Array Nat} {access : Access}
variable {entry : PoolEntry} {rest : List PoolEntry} {e' : Emission σ} {limit : LimitExceeded}
variable {a' : Assembler}

theorem assemble_ends {α : Type} {x : Assembly α} {answer : Except LimitExceeded α}
    (h : Ends x e.assembler answer a') :
    Ends (assemble x) e answer ⟨e.pool, a', e.state, e.patches⟩ :=
  bind_eq_ok.2 ⟨_, h, rfl⟩

/-- A slot is laid down, and its load is patched. -/
theorem group_cons_ends {answer : Except LimitExceeded Unit} (hslot : entry.slot = none)
    (hemit : Gives (Assembler.emitWord64 entry.value) e.assembler () a')
    (hcheck : checkReach s access (e.assembler.pc - base) = .ok ())
    (hrest : Ends (group patcher base type s offsets access rest)
      ⟨e.pool, (patcher ⟨entry.position, e.assembler.pc - base, access, type⟩ e.state a').2,
        (patcher ⟨entry.position, e.assembler.pc - base, access, type⟩ e.state a').1,
        e.patches.push ⟨entry.position, e.assembler.pc - base, access, type⟩⟩ answer e') :
    Ends (group patcher base type s offsets access (entry :: rest)) e answer e' := by
  rw [group, hslot]
  refine ends_bind.2 (Or.inl ⟨_, e, here_gives e, ?_⟩)
  refine ends_bind.2 (Or.inl ⟨(), _, assemble_ends hemit, ?_⟩)
  refine ends_bind.2 (Or.inl ⟨(), _, gives_lift.2 ⟨hcheck, rfl⟩, ?_⟩)
  exact ends_bind.2 (Or.inl ⟨(), _, patch_gives _ _ _, hrest⟩)

/-- There is no room for a slot, and its load is not patched. -/
theorem group_cons_refused (hslot : entry.slot = none)
    (hemit : Ends (Assembler.emitWord64 entry.value) e.assembler (.error limit) a') :
    Ends (group patcher base type s offsets access (entry :: rest)) e (.error limit)
      ⟨e.pool, a', e.state, e.patches⟩ := by
  rw [group, hslot]
  refine ends_bind.2 (Or.inl ⟨_, e, here_gives e, ?_⟩)
  exact ends_bind.2 (Or.inr ⟨limit, assemble_ends hemit, rfl⟩)

/-- An emission is refused where the constants are laid out. The pool has been marked by then. -/
theorem emit_refused (h : e.pool.isEmitted = false)
    (hsome : e.pool.isEmpty = false) (halign : Gives (Assembler.align 8) e.assembler () a')
    (hlay : Ends (layOut patcher a'.pc e.pool)
      ⟨{ e.pool with emittedAt := some a'.pc }, a', e.state, e.patches⟩ (.error limit) e') :
    Ends (emit patcher) e (.error limit) e' := by
  rw [Ends, emit_of_unmarked patcher h hsome]
  refine ends_bind.2 (Or.inl ⟨(), _, assemble_ends halign, ?_⟩)
  refine ends_bind.2 (Or.inl ⟨_, _, here_gives _, ?_⟩)
  refine ends_bind.2 (Or.inl ⟨(), _, beginAt_gives _ _, ?_⟩)
  exact ends_bind.2 (Or.inr ⟨limit, hlay, rfl⟩)

end

/-- Emissions that are reached from a first one by emitting the pool and by operations of the
assembler. The bytes of the pool are left alone, and no emission is refused after it has marked the
pool. Every emission may have a patcher of its own, whatever that remembers by then. -/
inductive Reached (positions : List Nat) (first : Emission σ) : Emission σ → Prop where
  | start : Reached positions first first
  | exchanged {e : Emission σ} (s : σ) (h : Reached positions first e) :
      Reached positions first ⟨e.pool, e.assembler, s, e.patches⟩
  | emitted {e e' : Emission σ} {patcher : Patcher σ} {answer : Option Nat}
      (h : Reached positions first e)
      (hkeeps : e.pool.isEmitted = false →
        patcher.Keeps ((e.assembler.pc + 7) / 8 * 8) positions)
      (hemit : Gives (emit patcher) e answer e') : Reached positions first e'
  | refused {e e' : Emission σ} {patcher : Patcher σ} {limit : LimitExceeded}
      (h : Reached positions first e) (hemit : Ends (emit patcher) e (.error limit) e')
      (hunmarked : e'.pool.isEmitted = false) : Reached positions first e'
  | operation {e : Emission σ} {a' : Assembler} {operation : Operation}
      {answer : Except LimitExceeded Unit} (h : Reached positions first e)
      (hspares : ∀ base, e.pool.emittedAt = some base →
        operation.Spares base (base + e.pool.size))
      (hrun : Ends operation.run e.assembler answer a') :
      Reached positions first ⟨e.pool, a', e.state, e.patches⟩

/-- **The emission that patched the loads.** It found an empty log, and its calls of the patcher are
the given ones. -/
structure Origin (positions : List Nat) (first : Emission σ) (base : Nat) (patcher : Patcher σ)
    (e e' : Emission σ) (calls : List Patch) : Prop where
  reached : Reached positions first e
  patches_eq : e.patches = #[]
  emits : Gives (emit patcher) e (some base) e'
  leads : Leads patcher (e.state, e.assembler) calls (e'.state, e'.assembler)

/-- Nothing of the pool has been laid out. -/
structure Open (p : ConstantPool) (e : Emission σ) : Prop where
  intact : e.assembler.Intact
  pool_eq : e.pool = p
  patches_eq : e.patches = #[]

/-- The whole pool is part of the code, and all loads have been patched. -/
structure Complete (p : ConstantPool) (base : Nat) (e : Emission σ) : Prop where
  intact : e.assembler.Intact
  pool_eq : e.pool = { p with emittedAt := some base }
  inside : base + p.size ≤ e.assembler.contents.code.length
  code_eq : (e.assembler.contents.code.take (base + p.size)).drop base = layDown p.loads
  patches_eq : e.patches.toList = p.loads.map p.patchOf

section

variable {p : ConstantPool} {reach : EntryType → Nat} {history : List Load} {base : Nat}

/-- A pool that has been laid out is complete. -/
theorem Complete.of_laid (h : Laid p base p.loads p.loads e) : Complete p base e where
  intact := h.intact
  pool_eq := h.pool_eq
  inside := by
    rw [h.intact.length_code, h.pc_eq]
    exact Nat.le_refl _
  code_eq := by
    -- the pool ends where the instructions end
    have hend : base + p.size = e.assembler.contents.code.length := by
      rw [h.intact.length_code, h.pc_eq, ConstantPool.size]
    rw [hend, List.take_length]
    exact h.code_eq
  patches_eq := h.patches_eq

/-- An operation that spares the pool leaves it complete. -/
theorem Complete.operation (h : Complete p base e) {operation : Operation} {a' : Assembler}
    {answer : Except LimitExceeded Unit} (hspares : operation.Spares base (base + p.size))
    (hrun : Ends operation.run e.assembler answer a') :
    Complete p base ⟨e.pool, a', e.state, e.patches⟩ := by
  obtain ⟨hinside, hcode⟩ := hspares.code_eq h.intact h.inside hrun
  exact ⟨Operation.intact_of_run h.intact hrun, h.pool_eq, hinside, hcode.trans h.code_eq,
    h.patches_eq⟩

/-- Every load finds its constant in a complete pool. -/
theorem Complete.value_eq (h : Complete p base e) (hcollected : p.Collected reach history)
    {l : Load} (hl : l ∈ history) :
    (e.assembler.contents.code.drop (base + p.offsetOf l.slot)).take 8 =
      leBytes 8 l.constant.value.toNat := by
  obtain ⟨l', hl', hslot, hbytes⟩ := layDown_at (hcollected.mem_founded hl)
  have hvalue := hcollected.value_eq (hcollected.loads_perm.mem_iff.2 hl') hl hslot
  have hindex := List.idxOf_lt_length_of_mem (hcollected.mem_founded hl)
  have hoffset : p.offsetOf l.slot + 8 ≤ p.size := by
    rw [ConstantPool.offsetOf, ConstantPool.size]
    omega
  change ((layDown p.loads).drop (p.offsetOf l.slot)).take 8 = _ at hbytes
  rw [← hvalue, ← hbytes, ← h.code_eq, List.drop_drop, List.drop_take, List.take_take,
    Nat.min_eq_left (by omega)]

/-- A pool that nothing of has been laid out is not marked. -/
theorem Open.isEmitted_eq (h : Open p e) (hcollected : p.Collected reach history) :
    e.pool.isEmitted = false := by
  rw [h.pool_eq, ConstantPool.isEmitted, hcollected.emittedAt_eq]
  rfl

/-- An emission that is refused before it marks the pool has laid out nothing. -/
theorem Open.refused (h : Open p e) (hempty : p.isEmpty = false)
    (hcollected : p.Collected reach history) {e' : Emission σ} {limit : LimitExceeded}
    (hemit : Ends (emit patcher) e (.error limit) e')
    (hunmarked : e'.pool.isEmitted = false) : Open p e' := by
  have hemitted := h.isEmitted_eq hcollected
  have hsome : e.pool.isEmpty = false := by rw [h.pool_eq, hempty]
  rw [Ends, emit_of_unmarked patcher hemitted hsome] at hemit
  rcases ends_bind.1 hemit with ⟨_, mid, -, hrest⟩ | ⟨_, halign, -⟩
  · -- behind the zeros the pool is marked, and stays so
    rcases ends_bind.1 hrest with ⟨_, _, hhere, hmark⟩ | ⟨_, hhere, -⟩
    · cases hhere
      rcases ends_bind.1 hmark with ⟨_, _, hbegin, hlay⟩ | ⟨_, hbegin, -⟩
      · cases hbegin
        rcases ends_bind.1 hlay with ⟨_, _, -, hanswer⟩ | ⟨_, hrefused, -⟩
        · cases hanswer
        · rw [Within.layOut (samePool patcher) _ _ _ _ _ hrefused] at hunmarked
          cases hunmarked
      · cases hbegin
    · cases hhere
  · obtain ⟨⟨_, a'⟩, hrun, hend⟩ := bind_eq_ok.1 halign
    cases hend
    have hends : Ends (Operation.align 8).run e.assembler _ a' := hrun
    exact ⟨Operation.intact_of_run h.intact hends, h.pool_eq, h.patches_eq⟩

/-- An emission of a complete pool answers where it begins and changes nothing. -/
theorem Complete.emit (h : Complete p base e) (hempty : p.isEmpty = false)
    {answer : Except LimitExceeded (Option Nat)} {e' : Emission σ}
    (hemit : Ends (emit patcher) e answer e') : answer = .ok (some base) ∧ e' = e := by
  have hmark : e.pool.isEmitted = true := by
    rw [h.pool_eq]
    rfl
  have hsome : e.pool.isEmpty = false := by
    rw [h.pool_eq]
    exact hempty
  have hgives := emit_of_marked patcher hmark
  rw [hsome, h.pool_eq] at hgives
  obtain ⟨hanswer, he⟩ := Prod.mk.inj (Except.ok.inj (hemit.symm.trans hgives))
  exact ⟨hanswer, he⟩

/-- An emission that answers has laid out the pool. -/
theorem Open.emit (h : Open p e) (hempty : p.isEmpty = false)
    (hcollected : p.Collected reach history)
    (hreach : ∀ type, 0 < reach type ∧ reach type < 64)
    (hkeeps : patcher.Keeps ((e.assembler.pc + 7) / 8 * 8)
      (history.map fun l => l.constant.position))
    {answer : Option Nat} {e' : Emission σ} (hemit : Gives (emit patcher) e answer e') :
    ∃ base, answer = some base ∧ Complete p base e' := by
  obtain ⟨pool, a, s, patches⟩ := e
  obtain ⟨hintact, rfl, rfl⟩ := h
  have hends := (emit_settles hcollected hkeeps hreach hintact rfl s).of_answer hemit
  cases answer with
  | none =>
    rw [hempty] at hends
    cases hends.1
  | some start =>
    obtain ⟨-, rfl, hlaid⟩ := hends
    exact ⟨_, rfl, .of_laid hlaid⟩

/-- **What is reached from collected constants**: either nothing of the pool has been laid out, or
all of it. -/
theorem Reached.cases {a : Assembler} {s : σ} (hcollected : p.Collected reach history)
    (hreach : ∀ type, 0 < reach type ∧ reach type < 64) (ha : a.Intact)
    (h : Reached (history.map fun l => l.constant.position) ⟨p, a, s, #[]⟩ e) :
    e.pool.isEmpty = p.isEmpty ∧ (p.isEmpty = false → Open p e ∨ ∃ base, Complete p base e) := by
  -- a pool is never half-way between two steps, because no refusal behind the mark is a step
  induction h with
  | start => exact ⟨rfl, fun _ => Or.inl ⟨ha, rfl, rfl⟩⟩
  | exchanged s h ih =>
    obtain ⟨hpool, hcases⟩ := ih
    refine ⟨hpool, fun hempty => ?_⟩
    rcases hcases hempty with hopen | ⟨base, hcomplete⟩
    · exact Or.inl ⟨hopen.intact, hopen.pool_eq, hopen.patches_eq⟩
    · exact Or.inr ⟨base, hcomplete.intact, hcomplete.pool_eq, hcomplete.inside,
        hcomplete.code_eq, hcomplete.patches_eq⟩
  | @emitted e e' patcher answer h hkeeps hemit ih =>
    obtain ⟨hpool, hcases⟩ := ih
    cases hempty : p.isEmpty with
    | true =>
      obtain ⟨_, hnone, hstill⟩ := emit_of_empty patcher (hpool.trans hempty)
      cases hnone.symm.trans hemit
      refine ⟨hstill, ?_⟩
      intro hsome
      cases hsome
    | false =>
      rcases hcases hempty with hopen | ⟨base, hcomplete⟩
      · obtain ⟨base, -, hcomplete⟩ :=
          hopen.emit hempty hcollected hreach (hkeeps (hopen.isEmitted_eq hcollected)) hemit
        refine ⟨?_, fun _ => Or.inr ⟨base, hcomplete⟩⟩
        rw [hcomplete.pool_eq]
        exact hempty
      · obtain ⟨-, rfl⟩ := hcomplete.emit hempty hemit
        exact ⟨hpool.trans hempty, fun _ => Or.inr ⟨base, hcomplete⟩⟩
  | @refused e e' patcher limit h hemit hunmarked ih =>
    obtain ⟨hpool, hcases⟩ := ih
    cases hempty : p.isEmpty with
    | true =>
      obtain ⟨_, hnone, -⟩ := emit_of_empty patcher (hpool.trans hempty)
      cases hnone.symm.trans hemit
    | false =>
      rcases hcases hempty with hopen | ⟨base, hcomplete⟩
      · have hopen' := hopen.refused hempty hcollected hemit hunmarked
        refine ⟨?_, fun _ => Or.inl hopen'⟩
        rw [hopen'.pool_eq, hempty]
      · cases (hcomplete.emit hempty hemit).1
  | @operation e a' operation answer h hspares hrun ih =>
    obtain ⟨hpool, hcases⟩ := ih
    refine ⟨hpool, fun hempty => ?_⟩
    rcases hcases hempty with hopen | ⟨base, hcomplete⟩
    · exact Or.inl ⟨Operation.intact_of_run hopen.intact hrun, hopen.pool_eq, hopen.patches_eq⟩
    · have hbase : e.pool.emittedAt = some base := by rw [hcomplete.pool_eq]
      have hsize : e.pool.size = p.size := by rw [hcomplete.pool_eq]; rfl
      have hspared := hspares base hbase
      rw [hsize] at hspared
      exact Or.inr ⟨base, hcomplete.operation hspared hrun⟩

/-- **A pool that is marked was laid out by one emission**, and the log is that of its calls. -/
theorem Reached.origin {a : Assembler} {s : σ} (hcollected : p.Collected reach history)
    (hreach : ∀ type, 0 < reach type ∧ reach type < 64) (ha : a.Intact)
    (hempty : p.isEmpty = false)
    (h : Reached (history.map fun l => l.constant.position) ⟨p, a, s, #[]⟩ e)
    (hbase : e.pool.emittedAt = some base) :
    ∃ patcher e₀ e₁, Origin (history.map fun l => l.constant.position) ⟨p, a, s, #[]⟩ base
      patcher e₀ e₁ e.patches.toList := by
  induction h with
  | start =>
    rw [hcollected.emittedAt_eq] at hbase
    cases hbase
  | exchanged s h ih => exact ih hbase
  | operation h hspares hrun ih => exact ih hbase
  | refused h hemit hunmarked ih =>
    rw [ConstantPool.isEmitted, hbase] at hunmarked
    cases hunmarked
  | @emitted e e' patcher answer h hkeeps hemit ih =>
    rcases (h.cases hcollected hreach ha).2 hempty with hopen | ⟨start, hcomplete⟩
    · obtain ⟨start, rfl, hcomplete⟩ :=
        hopen.emit hempty hcollected hreach (hkeeps (hopen.isEmitted_eq hcollected)) hemit
      rw [hcomplete.pool_eq] at hbase
      cases hbase
      obtain ⟨calls, hcalls, hleads⟩ := emit_leads hemit
      rw [hopen.patches_eq, List.nil_append] at hcalls
      rw [hcalls]
      exact ⟨patcher, e, e', h, hopen.patches_eq, hemit, hleads⟩
    · -- a complete pool is not laid out again
      obtain ⟨-, rfl⟩ := hcomplete.emit hempty hemit
      exact ih hbase

end

end Emission

open Emission

/-- **A pool that is emitted is complete**, as long as no emission has been refused after the mark:
every constant has been patched in, and its value lies where its load looks for it. It does not
matter how often the pool is emitted, by which patchers, and what is asked of the assembler in
between. -/
theorem emitted_complete {σ : Type} (reach : EntryType → Nat)
    (hreach : ∀ type, 1 ≤ reach type ∧ reach type ≤ 63) (constants : List Constant)
    {a : Assembler} (ha : a.Intact) (s : σ) :
    ∃ accesses pool,
      (ConstantPool.new (reach .intPtr) (reach .double)).addAll constants = .ok (accesses, pool) ∧
        ∀ e patcher base e', Reached (constants.map Constant.position) ⟨pool, a, s, #[]⟩ e →
          (e.pool.isEmitted = false →
            patcher.Keeps ((e.assembler.pc + 7) / 8 * 8) (constants.map Constant.position)) →
          Gives (emit patcher) e (some base) e' →
            (∃ patcher e₀ e₁, Origin (constants.map Constant.position) ⟨pool, a, s, #[]⟩ base
              patcher e₀ e₁ e'.patches.toList) ∧
            ∃ placements : List Placement, placements.map Placement.constant = constants ∧
              placements.map Placement.access = accesses ∧
                e'.patches.toList.Perm (placements.map Placement.patch) ∧
                  ∀ q ∈ placements, (e'.assembler.contents.code.drop (base + q.offset)).take 8 =
                    leBytes 8 q.constant.value.toNat := by
  have hbits : ∀ type, 0 < reach type ∧ reach type < 64 := by
    intro type
    exact ⟨(hreach type).1, Nat.lt_succ_of_le (hreach type).2⟩
  obtain ⟨history, pool, hadd, hconstants, hcollected⟩ :=
    (ConstantPool.Collected.new reach).addAll hbits constants
  rw [List.nil_append] at hcollected
  have hpositions : constants.map Constant.position =
      history.map fun l => l.constant.position := by
    rw [← hconstants, List.map_map]
    rfl
  refine ⟨_, pool, hadd, ?_⟩
  rw [hpositions]
  intro e patcher base e' hreached hkeeps hemit
  obtain ⟨hpool, hcases⟩ := hreached.cases hcollected hbits ha
  have hempty : pool.isEmpty = false := by
    -- an empty pool would not have been answered
    cases hempty : pool.isEmpty with
    | false => rfl
    | true =>
      obtain ⟨_, hnone, -⟩ := emit_of_empty patcher (hpool.trans hempty)
      cases hnone.symm.trans hemit
  have hcomplete : Complete pool base e' := by
    rcases hcases hempty with hopen | ⟨start, hcomplete⟩
    · obtain ⟨start, hanswer, hcomplete⟩ :=
        hopen.emit hempty hcollected hbits (hkeeps (hopen.isEmitted_eq hcollected)) hemit
      cases hanswer
      exact hcomplete
    · obtain ⟨hanswer, rfl⟩ := hcomplete.emit hempty hemit
      cases hanswer
      exact hcomplete
  have hbase : e'.pool.emittedAt = some base := by rw [hcomplete.pool_eq]
  have horigin :=
    (Reached.emitted hreached hkeeps hemit).origin hcollected hbits ha hempty hbase
  refine ⟨horigin, history.map pool.placementOf, ?_, ?_, ?_, ?_⟩
  · rw [List.map_map, ← hconstants]
    rfl
  · rw [List.map_map]
    rfl
  · rw [hcomplete.patches_eq, List.map_map]
    exact (hcollected.loads_perm.map pool.patchOf).symm
  · intro q hq
    obtain ⟨l, hl, rfl⟩ := List.mem_map.1 hq
    exact hcomplete.value_eq hcollected hl

/-- A pool is emitted twice, with a byte of a load replaced in between. The second patcher counts
from 0 again, and has nothing to count. -/
theorem emitted_complete_twice :
    ∃ pool e a e',
      (ConstantPool.new 3 3).addAll
          [⟨0, 5, true, .double⟩, ⟨2, 7, false, .intPtr⟩, ⟨4, 5, true, .double⟩] =
        .ok ([.regular, .overflowed, .regular], pool) ∧
      Gives (emit offsetPatcher)
        ⟨pool, ⟨.standard, copies 56 0, 7, .new 56, #[], .start⟩, 0, #[]⟩ (some 8) e ∧
      Gives (Operation.overwrite 1 [9].toByteArray).run e.assembler () a ∧
      Gives (emit offsetPatcher) ⟨e.pool, a, 0, e.patches⟩ (some 8) e' ∧
      (∃ patcher e₀ e₁, Origin [0, 2, 4]
        ⟨pool, ⟨.standard, copies 56 0, 7, .new 56, #[], .start⟩, 0, #[]⟩ 8 patcher e₀ e₁
          e'.patches.toList) ∧
      ∃ placements : List Placement,
        placements.map Placement.access = [.regular, .overflowed, .regular] ∧
          e'.patches.toList.Perm (placements.map Placement.patch) ∧
            ∀ q ∈ placements, (e'.assembler.contents.code.drop (8 + q.offset)).take 8 =
              leBytes 8 q.constant.value.toNat := by
  have ha : (⟨.standard, copies 56 0, 7, .new 56, #[], .start⟩ : Assembler).Intact := by
    refine ⟨⟨?_, ?_⟩, .start⟩
    · decide
    · rw [size_copies]
      exact Nat.le_of_eq rfl
  have hrun : ((ConstantPool.new 3 3).addAll
        [⟨0, 5, true, .double⟩, ⟨2, 7, false, .intPtr⟩, ⟨4, 5, true, .double⟩] >>=
      fun added => emit offsetPatcher
        ⟨added.2, ⟨.standard, copies 56 0, 7, .new 56, #[], .start⟩, 0, #[]⟩ >>=
      fun first => (Operation.overwrite 1 [9].toByteArray).run first.2.assembler >>=
      fun byte => emit offsetPatcher ⟨first.2.pool, byte.2, 0, first.2.patches⟩ >>=
      fun second => .ok (added.1, [first.1, second.1], byte.1)) =
    .ok ([.regular, .overflowed, .regular], [.ok (some 8), .ok (some 8)], .ok ()) := by
    decide +kernel
  have hmarked : ((ConstantPool.new 3 3).addAll
        [⟨0, 5, true, .double⟩, ⟨2, 7, false, .intPtr⟩, ⟨4, 5, true, .double⟩] >>=
      fun added => emit offsetPatcher
        ⟨added.2, ⟨.standard, copies 56 0, 7, .new 56, #[], .start⟩, 0, #[]⟩ >>=
      fun first => .ok first.2.pool.emittedAt) = .ok (some 8) := by
    decide +kernel
  obtain ⟨⟨accesses, pool⟩, hadd, hrest⟩ := bind_eq_ok.1 hrun
  obtain ⟨⟨answer, e⟩, hemit, hrest'⟩ := bind_eq_ok.1 hrest
  obtain ⟨⟨done, a⟩, hbyte, hrest''⟩ := bind_eq_ok.1 hrest'
  obtain ⟨⟨answer', e'⟩, hemit', hends⟩ := bind_eq_ok.1 hrest''
  have hanswers := Except.ok.inj hends
  simp only [Prod.mk.injEq, List.cons.injEq, and_true] at hanswers
  obtain ⟨rfl, ⟨rfl, rfl⟩, rfl⟩ := hanswers
  have hmark : e.pool.emittedAt = some 8 := by
    obtain ⟨_, hadd', hrest⟩ := bind_eq_ok.1 hmarked
    cases hadd.symm.trans hadd'
    obtain ⟨_, hemit'', hend⟩ := bind_eq_ok.1 hrest
    cases hemit.symm.trans hemit''
    exact Except.ok.inj hend
  have hreach : ∀ _ : EntryType, 1 ≤ 3 ∧ 3 ≤ 63 := fun _ => by decide
  obtain ⟨_, _, hadd', hcomplete⟩ := emitted_complete (fun _ => 3) hreach
    [⟨0, 5, true, .double⟩, ⟨2, 7, false, .intPtr⟩, ⟨4, 5, true, .double⟩] ha 0
  cases hadd.symm.trans hadd'
  have hkeeps : offsetPatcher.Keeps ((7 + 7) / 8 * 8) [0, 2, 4] := offsetPatcher_keeps (by decide)
  have hfirst : Reached [0, 2, 4]
      ⟨pool, ⟨.standard, copies 56 0, 7, .new 56, #[], .start⟩, 0, #[]⟩ e :=
    .emitted .start (fun _ => hkeeps) hemit
  have hbetween : Reached [0, 2, 4]
      ⟨pool, ⟨.standard, copies 56 0, 7, .new 56, #[], .start⟩, 0, #[]⟩
      ⟨e.pool, a, 0, e.patches⟩ := by
    refine .exchanged 0 (.operation hfirst (fun base hbase => ?_) hbyte)
    cases hmark.symm.trans hbase
    exact Or.inl (by decide)
  obtain ⟨horigin, placements, -, hannounced, hpatched, hvalues⟩ :=
    hcomplete _ offsetPatcher 8 e' hbetween (by
      intro hunmarked
      rw [ConstantPool.isEmitted, hmark] at hunmarked
      cases hunmarked) hemit'
  exact ⟨pool, e, a, e', hadd, hemit, hbyte, hemit', horigin, placements, hannounced, hpatched,
    hvalues⟩

/-- **An emission after one that was refused half-way.** The second constant has no slot and its
load has not been patched, and yet it is answered where the pool begins. -/
theorem emit_again_incomplete :
    ∃ pool a limit e,
      (ConstantPool.new 16 16).addAll [⟨0, 170, false, .intPtr⟩, ⟨4, 187, false, .intPtr⟩] =
        .ok ([.regular, .regular], pool) ∧
      Gives (Operation.emit (copies 4056 0)).run (.new ⟨4096, 4096, false, false, false⟩) () a ∧
      Ends (emit offsetPatcher) ⟨pool, a, 0, #[]⟩ (.error limit) e ∧
      Gives (emit offsetPatcher) e (some 4056) e ∧
      e.patches.toList = [⟨0, 0, .regular, .intPtr⟩] ∧ e.assembler.pc = 4064 := by
  have hadd : (ConstantPool.new 16 16).addAll
      [⟨0, 170, false, .intPtr⟩, ⟨4, 187, false, .intPtr⟩] =
        .ok ([.regular, .regular], ⟨⟨16, 2, none, #[⟨0, 170, false, none⟩, ⟨4, 187, false, none⟩],
          #[]⟩, ⟨16, 0, none, #[], #[]⟩, none⟩) := rfl
  obtain ⟨a, hfill, ha, hfull, hpc, hsize, hcontents⟩ :=
    Assembler.emit_new ⟨4096, 4096, false, false, false⟩ (size_copies 4056 0) rfl (by decide)
      (by decide)
  have hcode := ha.length_code.trans hpc
  have hstream : a.contents.stream = [] := congrArg Contents.stream hcontents
  have hword : ∀ value : UInt64, (leBytes 8 value.toNat).toByteArray.size = 8 := by
    intro value
    rw [← length_bytesOf, bytesOf_toByteArray, length_leBytes]
  -- the first slot leaves the gap free and nothing else
  have hroom : a.HasRoom (8 + gap) := by
    rw [ha.hasRoom_iff, hcode, hstream, hsize]
    decide
  obtain ⟨b, hfirst, hcarries, hemitted⟩ :=
    Effect.perform_gives (x := .emit (leBytes 8 (170 : UInt64).toNat).toByteArray) ha
      (by rintro _ ⟨⟩; rw [hword]; exact hroom) rfl
  have hstuck : b.Stuck 8 := by
    refine ⟨hcarries.grown.full_of_full hfull, ?_⟩
    rw [hcarries.intact.hasRoom_iff, hcarries.grown.full hfull, hsize, hemitted, Contents.emit,
      List.length_append, hcode, length_bytesOf, hword, hstream]
    decide
  obtain ⟨c, hc⟩ : ∃ c, (offsetPatcher ⟨0, 0, .regular, .intPtr⟩ 0 b).2 = c := ⟨_, rfl⟩
  have hfrozen : Assembler.Frozen b c := by
    rw [← hc]
    exact .overwrite hcarries.intact.toFits 0 [0].toByteArray
  obtain ⟨limit, hmake⟩ := (hfrozen.stuck hstuck).makeRoom_ends
    (hfrozen.intact hcarries.intact).toFits (Nat.le_refl 8)
  have hsecond : Ends (Assembler.emitWord64 187) c (.error limit) c := by
    rw [← hword 187] at hmake
    exact ends_bind.2 (Or.inr ⟨limit, hmake, rfl⟩)
  have halign : Gives (Operation.align 8).run a () a := by
    refine Operation.ends_of_effects rfl ?_
    rw [Operation.effects, hpc]
    rfl
  have hpc' : c.pc = 4064 := by
    rw [hfrozen.pc_eq, ← hcarries.intact.length_code, hemitted, Contents.emit, List.length_append,
      hcode, length_bytesOf, hword]
  refine ⟨_, a, limit, ⟨⟨⟨16, 2, none, #[⟨0, 170, false, none⟩, ⟨4, 187, false, none⟩],
    #[]⟩, ⟨16, 0, none, #[], #[]⟩, some 4056⟩, c, 1, #[⟨0, 0, .regular, .intPtr⟩]⟩, hadd, hfill, ?_,
    emit_of_marked offsetPatcher rfl, rfl, hpc'⟩
  refine emit_refused rfl rfl halign ?_
  rw [hpc]
  -- there are no doubles, and no pointers that may be shared
  refine ends_bind.2 (Or.inl ⟨#[], _, rfl, ?_⟩)
  refine ends_bind.2 (Or.inr ⟨limit, ends_bind.2 (Or.inl ⟨#[], _, rfl, ?_⟩), rfl⟩)
  refine ends_bind.2 (Or.inr ⟨limit, ?_, rfl⟩)
  refine group_cons_ends rfl hfirst ?_ ?_
  · rw [hpc]
    rfl
  · rw [hpc]
    change Ends _ (Emission.mk _ (offsetPatcher (Patch.mk 0 0 .regular .intPtr) 0 b).2 1 _) _ _
    rw [hc]
    exact group_cons_refused rfl hsecond

end CodeReloc
