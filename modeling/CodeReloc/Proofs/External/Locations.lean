import Mathlib.Logic.Function.Basic
import CodeReloc.Proofs.External.Naming

set_option autoImplicit false

/-!
# Every place of a runtime names itself

Code may refer to the data of a runtime, to each cell of it, to the roots, and to the constants of
the runtime (`Location`). They lie in memory of their own, cell by cell, so no two of them are the
same (`Location.address_injective`), and they are the places that a registry tries for a name
(`Location.places_eq`). A name that was registered comes before the name of a place, so a place is
named unless something was registered at it or a call was redirected to it.

Without roots there is no memory that they could begin in: what code refers to as their beginning is
no place of the runtime, and has no name from there.

Main statement: `nameOf_location`.
-/

namespace CodeReloc

/-- A place of a runtime that code may refer to. -/
inductive Location where
  | data
  | field (f : RuntimeField)
  | slot (id : AddressId)
  | roots
  | double (c : DoubleConstant)
  deriving DecidableEq, Repr

namespace Location

variable {ρ : Type} {r : Registry ρ} {l l' : Location}

/-- Where a place is. -/
def address (r : Registry ρ) : Location → Address
  | data => r.dataAddress
  | field f => r.fieldAddress f
  | slot id => r.slotAddress id
  | roots => r.rootsAddress
  | double c => r.doubleAddress c

/-- The name of a place. -/
def name : Location → String
  | data => "runtime_data"
  | field f => s!"RuntimeField::{f.name}"
  | slot id => s!"AddressId::{id.name}"
  | roots => "roots_array_start"
  | double c => s!"LDoubleConstant::{c.name}"

/-- Whether there is a cell at a place. The roots of a runtime without roots have none. -/
def IsCell (r : Registry ρ) : Location → Prop
  | roots => r.roots.isEmpty = false
  | _ => True

/-- The places in the data of a runtime, in the order of their cells. -/
def inData : List Location := [data] ++ RuntimeField.all.map field ++ AddressId.all.map slot

/-- The places that have cells. -/
def cells (r : Registry ρ) : List Location :=
  inData ++ (if r.roots.isEmpty then [] else [roots]) ++ DoubleConstant.all.map double

theorem data_mem_inData : data ∈ inData := List.mem_cons_self

theorem field_mem_inData (f : RuntimeField) : field f ∈ inData := by
  cases f <;> decide

theorem slot_mem_inData (id : AddressId) : slot id ∈ inData := by
  cases id <;> decide

theorem eq_of_not_mem_inData (h : l ∉ inData) : l = roots ∨ ∃ c, l = double c := by
  cases l with
  | data => exact absurd data_mem_inData h
  | field f => exact absurd (field_mem_inData f) h
  | slot id => exact absurd (slot_mem_inData id) h
  | roots => exact Or.inl rfl
  | double c => exact Or.inr ⟨c, rfl⟩

theorem mem_cells_iff : l ∈ cells r ↔ l.IsCell r := by
  rw [cells, List.mem_append, List.mem_append]
  cases l with
  | data => exact iff_of_true (Or.inl (Or.inl data_mem_inData)) trivial
  | field f => exact iff_of_true (Or.inl (Or.inl (field_mem_inData f))) trivial
  | slot id => exact iff_of_true (Or.inl (Or.inl (slot_mem_inData id))) trivial
  | roots => cases hroots : r.roots.isEmpty <;> simp [IsCell, inData, hroots]
  | double c =>
    have hc : c ∈ DoubleConstant.all := by cases c <;> decide
    exact iff_of_true (Or.inr (List.mem_map_of_mem hc)) trivial

/-! ## No two places are the same -/

/-- The places in the data lie one cell after the other. -/
theorem address_of_mem_inData (h : l ∈ inData) :
    l.address r = .within (.data r.id) (cellSize * inData.idxOf l) := by
  cases l with
  | data => rfl
  | field f => cases f <;> rfl
  | slot id => cases id <;> rfl
  | roots => simp [inData] at h
  | double c => simp [inData] at h

/-- What is not in the data lies in other memory. -/
theorem address_ne_of_mem_inData (h : l ∈ inData) (h' : l' ∉ inData) :
    l.address r ≠ l'.address r := by
  rw [address_of_mem_inData h]
  obtain rfl | ⟨c, rfl⟩ := eq_of_not_mem_inData h'
  · rw [address, Registry.rootsAddress]
    split <;> nofun
  · nofun

theorem doubleAddress_inj {c c' : DoubleConstant}
    (h : r.doubleAddress c = r.doubleAddress c') : c = c' := by
  cases c <;> cases c' <;> first | rfl | cases h

theorem rootsAddress_ne_doubleAddress (r : Registry ρ) (c : DoubleConstant) :
    r.rootsAddress ≠ r.doubleAddress c := by
  rw [Registry.rootsAddress]
  split <;> nofun

/-- **No two places are the same**, not even where there are no roots. -/
theorem address_injective (r : Registry ρ) : Function.Injective (address r) := by
  intro l l' h
  by_cases hl : l ∈ inData
  · by_cases hl' : l' ∈ inData
    · rw [address_of_mem_inData hl, address_of_mem_inData hl'] at h
      have hoffset : cellSize * inData.idxOf l = cellSize * inData.idxOf l' :=
        (Address.within.inj h).2
      have hindex : inData.idxOf l = inData.idxOf l' :=
        Nat.eq_of_mul_eq_mul_left (by decide) hoffset
      exact (List.idxOf_inj hl).1 hindex
    · exact absurd h (address_ne_of_mem_inData hl hl')
  · by_cases hl' : l' ∈ inData
    · exact absurd h.symm (address_ne_of_mem_inData hl' hl)
    · obtain rfl | ⟨c, rfl⟩ := eq_of_not_mem_inData hl
      · obtain rfl | ⟨c', rfl⟩ := eq_of_not_mem_inData hl'
        · rfl
        · exact absurd h (rootsAddress_ne_doubleAddress r c')
      · obtain rfl | ⟨c', rfl⟩ := eq_of_not_mem_inData hl'
        · exact absurd h.symm (rootsAddress_ne_doubleAddress r c)
        · rw [doubleAddress_inj h]

/-! ## The name of a place -/

/-- A registry tries the places that have cells. -/
theorem places_eq (r : Registry ρ) : r.places = (cells r).map fun l => (l.address r, l.name) := by
  rw [Registry.places, cells, inData]
  simp only [List.map_append, List.map_map]
  cases r.roots.isEmpty <;> rfl

/-- The only place that is tried and fits is the place itself, if it has a cell. -/
theorem find_places (r : Registry ρ) (l : Location) (name : String) :
    (r.places.find? fun place => place.1 == l.address r).map Prod.snd = some name ↔
      l.IsCell r ∧ l.name = name := by
  rw [places_eq, List.find?_map, Option.map_map, Option.map_eq_some_iff]
  constructor
  · rintro ⟨l', hfind, rfl⟩
    have hsame : l'.address r = l.address r := by
      simpa using List.find?_some hfind
    obtain rfl := address_injective r hsame
    exact ⟨mem_cells_iff.1 (List.mem_of_find?_eq_some hfind), rfl⟩
  · rintro ⟨hl, rfl⟩
    cases hfind : (cells r).find? ((fun place => place.1 == l.address r) ∘
        fun l => (l.address r, l.name)) with
    | some l' =>
      have hsame : l'.address r = l.address r := by
        simpa using List.find?_some hfind
      exact ⟨l', rfl, congrArg Location.name (address_injective r hsame)⟩
    | none =>
      have hother := List.find?_eq_none.1 hfind l (mem_cells_iff.2 hl)
      simp at hother

/-- No number names a cell of a runtime. -/
theorem IsCell.address_ne_absolute (h : l.IsCell r) (a : UInt64) : l.address r ≠ .absolute a := by
  cases l with
  | roots =>
    have hroots : r.roots.isEmpty = false := h
    rw [address, Registry.rootsAddress, hroots]
    nofun
  | data | field | slot | double => nofun

/-- The library's own ways of redirecting calls leave the places of a runtime alone. -/
theorem resolve_eq_none {r : Registry} (h : l.IsCell r) :
    r.redirector.resolve (l.address r) = none := by
  cases hredirector : r.redirector with
  | direct => rfl
  | trampolines runtime made =>
    cases l with
    | data => rfl
    | field f => rfl
    | slot id => rfl
    | roots =>
      have hroots : r.roots.isEmpty = false := h
      rw [address, Registry.rootsAddress, hroots]
      rfl
    | double c => rfl

/-- A place that nothing was registered at has its own name, if it has a cell, and else none. -/
theorem nameOf_eq_some_iff [Redirecting ρ] (h : r.registeredName? (l.address r) = none)
    (name : String) : r.nameOf (l.address r) = some name ↔ l.IsCell r ∧ l.name = name := by
  rw [Registry.nameOf, h]
  exact find_places r l name

end Location

/-- **Every place of a runtime names itself.** However many roots there are, whatever was registered
and however calls are redirected, the places that code may refer to are all different, and each place
with a cell has its own name, provided that nothing was registered at such a place and none of them
is the address that a call was redirected to. Only the beginning of roots that there are none of is
no cell: the name of that address is the name of what was registered there, if anything was. -/
theorem nameOf_location {ρ : Type} [Redirecting ρ] (r : Registry ρ)
    (hregistered : ∀ l : Location, l.IsCell r → ¬r.Registers (l.address r))
    (hresolve : ∀ l : Location, l.IsCell r →
      Redirecting.resolve r.redirector (l.address r) = none) :
    Function.Injective (Location.address r) ∧
      (∀ l : Location, l.IsCell r → r.nameOf (l.address r) = some l.name) ∧
      (r.roots.isEmpty = true →
        ∀ name, r.nameOf r.rootsAddress = some name ↔
          NamedAt r (r.targetOf r.rootsAddress) name) := by
  refine ⟨Location.address_injective r, ?_, ?_⟩
  · intro l hl
    have htarget : r.targetOf (l.address r) = l.address r :=
      targetOf_of_resolve_eq_none (hresolve l hl)
    have hnone : r.registeredName? (l.address r) = none :=
      registeredName?_eq_none (htarget.symm ▸ hregistered l hl)
    exact (Location.nameOf_eq_some_iff hnone l.name).2 ⟨hl, rfl⟩
  · intro hroots name
    constructor
    · intro hname
      cases hregistered' : r.registeredName? r.rootsAddress with
      | some other =>
        have hother := registeredName?_eq_some_iff.1 hregistered'
        rw [nameOf_eq_of_namedAt hother] at hname
        exact Option.some.inj hname ▸ hother
      | none =>
        have hcell := (Location.nameOf_eq_some_iff (l := .roots) hregistered' name).1 hname
        have hsome : r.roots.isEmpty = false := hcell.1
        rw [hroots] at hsome
        cases hsome
    · exact nameOf_eq_of_namedAt

/-- A runtime with sixteen roots in which the functions and a trampoline are elsewhere. -/
theorem nameOf_location_simulated :
    let r : Registry := .new 0 [⟨0, "StackGuard", .absolute 0x100000, 0⟩]
      [⟨0, "ArrayPush", .absolute 0x200000⟩] [⟨0, "array_push_slow", .absolute 0x300000⟩]
      (.trampolines 0 [(.absolute 0x100000, .builtin)]) 0 16
    (∀ l : Location, l.IsCell r → ¬r.Registers (l.address r)) ∧
      (∀ l : Location, l.IsCell r → Redirecting.resolve r.redirector (l.address r) = none) ∧
      r.nameOf (.within (.roots 0) 0) = some "roots_array_start" := by
  intro r
  have hregistered : ∀ l : Location, l.IsCell r → ¬r.Registers (l.address r) := by
    intro l hl
    have hne := hl.address_ne_absolute
    rintro (⟨f, hf, haddress⟩ | ⟨b, hb, haddress⟩ | ⟨f, hf, haddress⟩)
    · cases List.mem_singleton.1 hf
      exact hne 0x100000 haddress.symm
    · cases List.mem_singleton.1 hb
      exact hne 0x200000 haddress.symm
    · cases List.mem_singleton.1 hf
      exact hne 0x300000 haddress.symm
  have hresolve : ∀ l : Location, l.IsCell r →
      Redirecting.resolve r.redirector (l.address r) = none :=
    fun _ hl => Location.resolve_eq_none hl
  exact ⟨hregistered, hresolve, (nameOf_location r hregistered hresolve).2.1 .roots rfl⟩

/-- **The beginning of roots that there are none of has no name.** Nothing is registered here and
no call is redirected. -/
theorem rootless_unnamed :
    let r : Registry := .new 0 [] [] [] .direct 0 0
    r.nameOf (Location.roots.address r) = none := by
  rfl

end CodeReloc
