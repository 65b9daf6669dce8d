import CodeReloc.Proofs.ConstantPool.Emitting

set_option autoImplicit false

/-!
# What the calls of a patcher lead to

A patcher is called in the middle of an emission, with the assembler as it is by then and with what
it remembers of its earlier calls. `Leads` says what a list of such calls comes to, where zeros and
slots may be laid down between them.

Laying out a pool consists of slots, zeros and patches. A relation that holds along each of them
holds along the whole, also when there is no room for the rest of it (`Within.layOut`). This is used
twice: the pool stays as it is, and the log of the patches is that of the calls.

Main statement: `emit_leads`. Whatever an emission ends in, it adds to the log the calls that lead
to the assembler it leaves behind.
-/

namespace CodeReloc

/-- **Calls of a patcher**, one after the other, and what they lead to from an assembler and what
the patcher remembers at first. -/
inductive Leads {σ : Type} (patcher : Patcher σ) (first : σ × Assembler) :
    List Patch → σ × Assembler → Prop where
  | start : Leads patcher first [] first
  /-- Zeros are filled in. -/
  | aligned {calls : List Patch} {s : σ} {a a' : Assembler} {answer : Except LimitExceeded Unit}
      (h : Leads patcher first calls (s, a)) (hrun : Ends (Assembler.align 8) a answer a') :
      Leads patcher first calls (s, a')
  /-- A slot is laid down. -/
  | slot {calls : List Patch} {s : σ} {a a' : Assembler} {answer : Except LimitExceeded Unit}
      (value : UInt64) (h : Leads patcher first calls (s, a))
      (hrun : Ends (Assembler.emitWord64 value) a answer a') : Leads patcher first calls (s, a')
  | patched {calls : List Patch} {s : σ} {a : Assembler} (change : Patch)
      (h : Leads patcher first calls (s, a)) :
      Leads patcher first (calls ++ [change]) (patcher change s a)

/-- Calls go on from where others have led. -/
theorem Leads.trans {σ : Type} {patcher : Patcher σ} {first mid last : σ × Assembler}
    {calls more : List Patch} (h : Leads patcher first calls mid)
    (hmore : Leads patcher mid more last) : Leads patcher first (calls ++ more) last := by
  induction hmore with
  | start =>
    rw [List.append_nil]
    exact h
  | aligned _ hrun ih => exact .aligned ih hrun
  | slot value _ hrun ih => exact .slot value ih hrun
  | patched change _ ih =>
    rw [← List.append_assoc]
    exact .patched change ih

namespace Emission

variable {σ α β : Type}

/-- A relation that holds along everything that laying out a pool consists of. -/
structure LayoutRelation (patcher : Patcher σ) (R : Emission σ → Emission σ → Prop) : Prop where
  refl : ∀ e, R e e
  trans : ∀ {e mid e'}, R e mid → R mid e' → R e e'
  align : ∀ {e a' answer}, Ends (Assembler.align 8) e.assembler answer a' →
    R e ⟨e.pool, a', e.state, e.patches⟩
  slot : ∀ {e a' answer value}, Ends (Assembler.emitWord64 value) e.assembler answer a' →
    R e ⟨e.pool, a', e.state, e.patches⟩
  patch : ∀ e change, R e ⟨e.pool, (patcher change e.state e.assembler).2,
    (patcher change e.state e.assembler).1, e.patches.push change⟩

/-- The relation holds between the start of a step and its end, whatever it ends in. -/
def Within (R : Emission σ → Emission σ → Prop) (x : Emitting σ α) : Prop :=
  ∀ e answer e', Ends x e answer e' → R e e'

namespace Within

variable {patcher : Patcher σ} {R : Emission σ → Emission σ → Prop}
variable (hR : LayoutRelation patcher R)

include hR

theorem bind {x : Emitting σ α} {f : α → Emitting σ β} (hx : Within R x)
    (hf : ∀ v, Within R (f v)) : Within R (x >>= f) := by
  intro e answer e' h
  rcases ends_bind.1 h with ⟨v, mid, hfirst, hrest⟩ | ⟨limit, hfirst, -⟩
  · exact hR.trans (hx e _ mid hfirst) (hf v mid answer e' hrest)
  · exact hx e _ e' hfirst

theorem pure (v : α) : Within R (pure v : Emitting σ α) := by
  intro e answer e' h
  cases h
  exact hR.refl e

theorem lift (x : Except Fault α) : Within R (liftM x : Emitting σ α) := by
  intro e answer e' h
  rw [Ends, Computation.lift_apply] at h
  obtain ⟨_, -, h⟩ := bind_eq_ok.1 h
  cases h
  exact hR.refl e

theorem here : Within R (here : Emitting σ Nat) := by
  intro e answer e' h
  cases h
  exact hR.refl e

theorem align : Within R (assemble (Assembler.align 8) : Emitting σ Unit) := by
  intro e answer e' h
  obtain ⟨⟨_, a'⟩, hrun, h⟩ := bind_eq_ok.1 h
  cases h
  exact hR.align hrun

theorem slot (value : UInt64) :
    Within R (assemble (Assembler.emitWord64 value) : Emitting σ Unit) := by
  intro e answer e' h
  obtain ⟨⟨_, a'⟩, hrun, h⟩ := bind_eq_ok.1 h
  cases h
  exact hR.slot hrun

theorem patch (change : Patch) : Within R (Emission.patch patcher change) := by
  intro e answer e' h
  cases h
  exact hR.patch e change

variable (base : Nat) (type : EntryType) (s : PoolSection)

theorem shared (entries : List PoolEntry) (offsets : Array Nat) :
    Within R (Emission.shared patcher base type s entries offsets) := by
  induction entries generalizing offsets with
  | nil => exact pure hR _
  | cons entry entries ih =>
    rw [Emission.shared]
    refine bind hR (here hR) fun _ => bind hR (slot hR _) fun _ => ?_
    exact bind hR (lift hR _) fun _ => bind hR (patch hR _) fun _ => ih _

theorem group (offsets : Array Nat) (access : Access) (entries : List PoolEntry) :
    Within R (Emission.group patcher base type s offsets access entries) := by
  induction entries with
  | nil => exact pure hR _
  | cons entry entries ih =>
    rw [Emission.group]
    cases entry.slot with
    | none =>
      refine bind hR (here hR) fun _ => bind hR (slot hR _) fun _ => ?_
      exact bind hR (lift hR _) fun _ => bind hR (patch hR _) fun _ => ih
    | some slot => exact bind hR (lift hR _) fun _ => bind hR (patch hR _) fun _ => ih

theorem regular : Within R (Emission.regular patcher base type s) :=
  bind hR (shared hR base type s _ _) fun _ =>
    bind hR (group hR base type s _ _ _) fun _ => pure hR _

/-- **What holds along each slot and each patch holds along the whole layout.** -/
theorem layOut (p : ConstantPool) : Within R (Emission.layOut patcher base p) := by
  refine bind hR (regular hR base .double _) fun _ => ?_
  refine bind hR (regular hR base .intPtr _) fun _ => ?_
  have hlast : ∀ offsets : Array Nat, Within R (if p.intPtrs.overflows = true then
      Emission.overflowed patcher base .intPtr p.intPtrs offsets else Pure.pure ()) := by
    intro offsets
    split
    · exact group hR base .intPtr _ _ _ _
    · exact pure hR _
  dsimp only
  split
  · exact bind hR (align hR) fun _ => bind hR (group hR base .double _ _ _ _) fun _ => hlast _
  · exact hlast _

end Within

variable {patcher : Patcher σ} {e mid e' : Emission σ}

/-- Laying out a pool leaves its constants alone. -/
theorem samePool (patcher : Patcher σ) : LayoutRelation patcher fun e e' => e'.pool = e.pool where
  refl _ := rfl
  trans h h' := h'.trans h
  align _ := rfl
  slot _ := rfl
  patch _ _ := rfl

/-! ## The log of the calls -/

/-- The log has grown by calls of the patcher, and these lead from one assembler to the other. -/
def Logged (patcher : Patcher σ) (e e' : Emission σ) : Prop :=
  ∃ calls, e'.patches.toList = e.patches.toList ++ calls ∧
    Leads patcher (e.state, e.assembler) calls (e'.state, e'.assembler)

/-- What leaves the log alone is no call. -/
theorem Logged.of_leads (hpatches : e'.patches = e.patches)
    (h : Leads patcher (e.state, e.assembler) [] (e'.state, e'.assembler)) :
    Logged patcher e e' := by
  refine ⟨[], ?_, h⟩
  rw [hpatches, List.append_nil]

theorem Logged.trans (h : Logged patcher e mid) (h' : Logged patcher mid e') :
    Logged patcher e e' := by
  obtain ⟨calls, hcalls, hleads⟩ := h
  obtain ⟨more, hmore, hleads'⟩ := h'
  refine ⟨calls ++ more, ?_, hleads.trans hleads'⟩
  rw [hmore, hcalls, List.append_assoc]

/-- **Every patch in the log is a call of the patcher.** -/
theorem logged (patcher : Patcher σ) : LayoutRelation patcher (Logged patcher) where
  refl _ := .of_leads rfl .start
  trans := Logged.trans
  align hrun := .of_leads rfl (.aligned .start hrun)
  slot hrun := .of_leads rfl (.slot _ .start hrun)
  patch _ change := ⟨[change], Array.toList_push, .patched change .start⟩

theorem currentPool_within : Within (Logged patcher) (currentPool : Emitting σ ConstantPool) := by
  intro e answer e' h
  cases h
  exact .of_leads rfl .start

theorem beginAt_within (base : Nat) :
    Within (Logged patcher) (beginAt base : Emitting σ Unit) := by
  intro e answer e' h
  cases h
  exact .of_leads rfl .start

/-- **What an emission does to the assembler** is what its calls of the patcher lead to, with the
slots and zeros between them. It may be answered or refused, and the pool may be marked already. -/
theorem emit_leads {answer : Except LimitExceeded (Option Nat)}
    (h : Ends (emit patcher) e answer e') : Logged patcher e e' := by
  have hR := logged patcher
  have hanswer : Within (Logged patcher) (do
      let p ← currentPool
      return if p.isEmpty then none else p.emittedAt : Emitting σ (Option Nat)) :=
    .bind hR currentPool_within fun _ => .pure hR _
  refine (?_ : Within (Logged patcher) (emit patcher)) e answer e' h
  refine .bind hR currentPool_within fun p => ?_
  -- the pool is marked in between, which is no call
  have hbegin : ∀ next : Nat → Emitting σ (Option Nat),
      (∀ base, Within (Logged patcher) (next base)) →
        Within (Logged patcher) (do
          let base ← here
          beginAt base
          next base) := by
    intro next hnext
    exact .bind hR (.here hR) fun base => .bind hR (beginAt_within base) fun _ => hnext base
  dsimp only
  split
  · split
    · refine .bind hR (.align hR) fun _ => hbegin _ fun base => ?_
      exact .bind hR (.layOut hR base p) fun _ => hanswer
    · exact hbegin _ fun _ => hanswer
  · exact hanswer

end Emission

end CodeReloc
