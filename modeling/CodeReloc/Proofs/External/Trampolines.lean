import Mathlib.Data.Finset.Card
import Mathlib.Data.List.Forall2
import CodeReloc.External.Trampoline

set_option autoImplicit false

/-!
# Trampolines are a bijection

A trampoline is found by what it stands for when a call is redirected, and by where it lies when it
is resolved. Both ways lead through one list: the trampoline of number `index` stands for the pair
at `index` (`IsStub`). Redirecting a call puts its pair at the end of the list or finds it there, so
the list has no pair twice, never loses one, and holds the pairs of the calls and no others
(`Redirects`).

Main statement: `redirectAll_bijective`.
-/

namespace CodeReloc

/-- A function, and a way of calling it. -/
abbrev Callee := Address × CallType

namespace Redirector

/-- Redirects calls one after the other. -/
def redirectAll (r : Redirector) : List Callee → List Address × Redirector
  | [] => ([], r)
  | (function, callType) :: calls =>
    let (stub, r) := r.redirect function callType
    let (stubs, r) := r.redirectAll calls
    (stub :: stubs, r)

end Redirector

/-- The address is that of the trampoline of the callee. -/
def IsStub (runtime : Nat) (made : List Callee) (callee : Callee) (address : Address) : Prop :=
  ∃ index, address = .within (.stub runtime index) 0 ∧ made[index]? = some callee

section

variable {runtime : Nat} {made made' : List Callee} {callee callee' : Callee}
variable {address address' : Address}

namespace IsStub

/-- A trampoline stays where it is when more are made. -/
theorem mono (h : IsStub runtime made callee address) (hmade : made <+: made') :
    IsStub runtime made' callee address := by
  obtain ⟨index, haddress, hindex⟩ := h
  obtain ⟨later, rfl⟩ := hmade
  obtain ⟨hlt, -⟩ := List.getElem?_eq_some_iff.1 hindex
  exact ⟨index, haddress, (List.getElem?_append_left hlt).trans hindex⟩

theorem mem (h : IsStub runtime made callee address) : callee ∈ made := by
  obtain ⟨index, -, hindex⟩ := h
  exact List.mem_of_getElem? hindex

/-- Where no pair was put down twice, a trampoline and its callee determine each other. -/
theorem eq_iff_eq (hmade : made.Nodup) (h : IsStub runtime made callee address)
    (h' : IsStub runtime made callee' address') : address = address' ↔ callee = callee' := by
  obtain ⟨index, rfl, hindex⟩ := h
  obtain ⟨index', rfl, hindex'⟩ := h'
  constructor
  · intro hsame
    cases hsame
    exact Option.some.inj (hindex.symm.trans hindex')
  · rintro rfl
    obtain ⟨hlt, hget⟩ := List.getElem?_eq_some_iff.1 hindex
    obtain ⟨hlt', hget'⟩ := List.getElem?_eq_some_iff.1 hindex'
    rw [(hmade.getElem_inj_iff).1 (hget.trans hget'.symm)]

end IsStub

/-- An address resolves to a callee exactly when it is that of its trampoline. -/
theorem resolve_eq_some_iff :
    (Redirector.trampolines runtime made).resolve address = some callee ↔
      IsStub runtime made callee address := by
  constructor
  · intro h
    unfold Redirector.resolve at h
    split at h
    · rename_i owner index hr
      cases hr
      split at h
      · rename_i howner
        subst howner
        exact ⟨index, rfl, h⟩
      · cases h
    · cases h
  · rintro ⟨index, rfl, hindex⟩
    rw [Redirector.resolve, if_pos rfl, hindex]

/-! ## Redirecting calls -/

/-- What redirecting calls does to the list of trampolines. -/
structure Redirects (runtime : Nat) (made : List Callee) (calls : List Callee)
    (stubs : List Address) (made' : List Callee) : Prop where
  kept : made <+: made'
  nodup : made.Nodup → made'.Nodup
  mem_iff : ∀ callee, callee ∈ made' ↔ callee ∈ made ∨ callee ∈ calls
  stubs : List.Forall₂ (IsStub runtime made') calls stubs

namespace Redirects

theorem nil (runtime : Nat) (made : List Callee) : Redirects runtime made [] [] made := by
  refine ⟨List.prefix_refl made, fun h => h, ?_, .nil⟩
  simp

/-- The first call and then the others. -/
theorem cons {mid calls : List Callee} {stubs : List Address}
    (h : Redirects runtime made [callee] [address] mid)
    (h' : Redirects runtime mid calls stubs made') :
    Redirects runtime made (callee :: calls) (address :: stubs) made' := by
  refine ⟨h.kept.trans h'.kept, fun hmade => h'.nodup (h.nodup hmade), ?_, ?_⟩
  · intro other
    rw [h'.mem_iff, h.mem_iff, List.mem_singleton, List.mem_cons, or_assoc]
  · cases h.stubs with
    | cons hstub _ => exact .cons (hstub.mono h'.kept) h'.stubs

end Redirects

/-- A call finds the trampoline of its callee or makes one. -/
theorem redirect_inv (runtime : Nat) (made : List Callee) (callee : Callee) :
    ∃ stub made',
      (Redirector.trampolines runtime made).redirect callee.1 callee.2 =
          (stub, .trampolines runtime made') ∧
        Redirects runtime made [callee] [stub] made' := by
  rw [Redirector.redirect]
  cases hfind : made.findIdx? (· == (callee.1, callee.2)) with
  | some index =>
    obtain ⟨hlt, hcallee, -⟩ := List.findIdx?_eq_some_iff_getElem.1 hfind
    have hsame : made[index] = callee := eq_of_beq hcallee
    refine ⟨_, made, rfl, List.prefix_refl made, fun h => h, ?_, ?_⟩
    · intro other
      rw [List.mem_singleton]
      constructor
      · exact Or.inl
      · rintro (hother | rfl)
        · exact hother
        · rw [← hsame]
          exact List.getElem_mem hlt
    · refine .cons ⟨index, rfl, ?_⟩ .nil
      rw [List.getElem?_eq_getElem hlt, hsame]
  | none =>
    have hnew : callee ∉ made := by
      intro hmem
      have hother := List.findIdx?_eq_none_iff.1 hfind callee hmem
      simp at hother
    refine ⟨_, made ++ [callee], rfl, List.prefix_append made [callee], ?_, ?_, ?_⟩
    · intro hmade
      rw [List.nodup_append]
      refine ⟨hmade, List.nodup_singleton callee, ?_⟩
      rintro a ha b hb rfl
      rw [List.mem_singleton] at hb
      exact hnew (hb ▸ ha)
    · intro other
      rw [List.mem_append]
    · refine .cons ⟨made.length, rfl, ?_⟩ .nil
      exact List.getElem?_concat_length

/-- **Calls find or make the trampolines of their callees and change nothing else.** -/
theorem redirectAll_inv (runtime : Nat) (made calls : List Callee) :
    ∃ stubs made',
      (Redirector.trampolines runtime made).redirectAll calls =
          (stubs, .trampolines runtime made') ∧
        Redirects runtime made calls stubs made' := by
  -- the calls behind the first one begin with the list that it has left
  induction calls generalizing made with
  | nil => exact ⟨[], made, rfl, .nil runtime made⟩
  | cons callee calls ih =>
    obtain ⟨stub, mid, hfirst, hredirects⟩ := redirect_inv runtime made callee
    obtain ⟨stubs, made', hrest, hredirects'⟩ := ih mid
    refine ⟨stub :: stubs, made', ?_, hredirects.cons hredirects'⟩
    rw [Redirector.redirectAll, hfirst]
    simp only [hrest]

end

/-- **Trampolines and callees determine each other, for good.** Of the calls that a new redirector
has redirected, two go to the same address exactly when they have the same callee; whatever is
redirected afterwards, each address still resolves to its callee; no other address resolves; and
there are as many trampolines as different callees. -/
theorem redirectAll_bijective (runtime : Nat) (calls more : List Callee) :
    let (stubs, r) := (Redirector.trampolines runtime []).redirectAll calls
    stubs.length = calls.length ∧
      (∀ p ∈ calls.zip stubs, ∀ q ∈ calls.zip stubs, p.2 = q.2 ↔ p.1 = q.1) ∧
      (∀ p ∈ calls.zip stubs, (r.redirectAll more).2.resolve p.2 = some p.1) ∧
      (∀ address, address ∉ stubs → r.resolve address = none) ∧
      r.size = calls.toFinset.card := by
  obtain ⟨stubs, made, hcalls, hredirects⟩ := redirectAll_inv runtime [] calls
  obtain ⟨later, made', hmore, hredirects'⟩ := redirectAll_inv runtime made more
  have hnodup : made.Nodup := hredirects.nodup List.nodup_nil
  have hmem : ∀ callee, callee ∈ made ↔ callee ∈ calls := by
    intro callee
    rw [hredirects.mem_iff]
    simp
  obtain ⟨hlength, hstubs⟩ := List.forall₂_iff_zip.1 hredirects.stubs
  rw [hcalls]
  simp only [hmore]
  refine ⟨hlength.symm, ?_, ?_, ?_, ?_⟩
  · intro p hp q hq
    exact (hstubs hp).eq_iff_eq hnodup (hstubs hq)
  · intro p hp
    exact resolve_eq_some_iff.2 ((hstubs hp).mono hredirects'.kept)
  · intro address haddress
    rw [Option.eq_none_iff_forall_ne_some]
    intro callee hresolve
    have hstub := resolve_eq_some_iff.1 hresolve
    -- the callee was redirected, and the address it got can only be this one
    obtain ⟨i, hi, rfl⟩ := List.getElem_of_mem ((hmem callee).1 hstub.mem)
    have hi' : i < stubs.length := hlength ▸ hi
    have hgiven : IsStub runtime made calls[i] stubs[i] := hredirects.stubs.get hi hi'
    have hsame : address = stubs[i] := (hstub.eq_iff_eq hnodup hgiven).2 rfl
    rw [hsame] at haddress
    exact haddress (List.getElem_mem hi')
  · rw [Redirector.size, ← List.toFinset_card_of_nodup hnodup]
    have hsame : made.toFinset = calls.toFinset := by
      ext callee
      rw [List.mem_toFinset, List.mem_toFinset, hmem]
    rw [hsame]

/-- Two callees, each called twice in turn. -/
example :
    ((Redirector.trampolines 0 []).redirectAll
        [(.absolute 8, .builtin), (.absolute 8, .builtinFp), (.absolute 8, .builtin),
          (.absolute 8, .builtinFp)]).1 =
      [.within (.stub 0 0) 0, .within (.stub 0 1) 0, .within (.stub 0 0) 0,
        .within (.stub 0 1) 0] := by
  decide

end CodeReloc
