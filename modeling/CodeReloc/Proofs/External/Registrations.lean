import CodeReloc.External.Registry

set_option autoImplicit false

/-!
# Registrations that were made again

A registration is found by its number, by the address that it is at, or by its name, and each of
these look-ups takes the last one with the key that it was asked for (`LastWith`). So what is found
by one key is found by another one as well unless that other key was registered again further
behind, which leaves the first registration where it is (`LastWith.find_other`).

Main statement: `found_by_number_iff`.
-/

namespace CodeReloc

section

variable {α κ ι : Type}

/-- An element is the last one of a list with a key: of those in `after`, which stand behind it,
none has the key. -/
structure LastWith (key : α → κ) (k : κ) (l : List α) (x : α) (after : List α) : Prop where
  split : ∃ before, l = before ++ x :: after
  key_eq : key x = k
  later : ∀ y ∈ after, key y ≠ k

variable {key : α → κ} {k : κ} {l after : List α} {x : α}

theorem LastWith.mem (h : LastWith key k l x after) : x ∈ l := by
  obtain ⟨before, rfl⟩ := h.split
  exact List.mem_append_right before List.mem_cons_self

/-- What stands behind the last one is not the last one again. -/
theorem LastWith.ne_of_mem (h : LastWith key k l x after) {y : α} (hy : y ∈ after) : y ≠ x := by
  rintro rfl
  exact h.later y hy h.key_eq

namespace Registry

variable [BEq κ] [LawfulBEq κ]

theorem findLast?_append (p : α → Bool) (l l' : List α) :
    findLast? p (l ++ l') = (findLast? p l').or (findLast? p l) := by
  rw [findLast?, List.reverse_append, List.find?_append]
  rfl

/-- One that fits is found unless one behind it fits as well. -/
theorem findLast?_cons_self (key : α → κ) (x : α) (after : List α) :
    findLast? (fun y => key y == key x) (x :: after) =
      (findLast? (fun y => key y == key x) after).or (some x) := by
  have hx : findLast? (fun y => key y == key x) [x] = some x :=
    List.find?_cons_of_pos (beq_self_eq_true (key x))
  rw [← List.singleton_append, findLast?_append, hx]

/-- **A look-up finds the last one with the key.** -/
theorem findLast?_eq_some_iff :
    findLast? (fun y => key y == k) l = some x ↔ ∃ after, LastWith key k l x after := by
  rw [findLast?, List.find?_eq_some_iff_append, beq_iff_eq]
  constructor
  · rintro ⟨hkey, behind, before, hl, hbehind⟩
    refine ⟨behind.reverse, ⟨before.reverse, ?_⟩, hkey, ?_⟩
    · rw [← List.reverse_reverse l, hl]
      simp
    · intro y hy hk
      have hother := hbehind y (List.mem_reverse.1 hy)
      simp [hk] at hother
  · rintro ⟨after, ⟨before, rfl⟩, hkey, hlater⟩
    refine ⟨hkey, after.reverse, before.reverse, by simp, ?_⟩
    intro y hy
    simpa using hlater y (List.mem_reverse.1 hy)

theorem findLast?_eq_none_iff :
    findLast? (fun y => key y == k) l = none ↔ ∀ y ∈ l, key y ≠ k := by
  rw [findLast?, List.find?_eq_none]
  simp

/-- Where one with the key is in the list the look-up finds one. -/
theorem exists_lastWith (key : α → κ) (hx : x ∈ l) :
    ∃ y after, LastWith key (key x) l y after := by
  cases hfind : findLast? (fun y => key y == key x) l with
  | some y => exact ⟨y, findLast?_eq_some_iff.1 hfind⟩
  | none => exact absurd rfl (findLast?_eq_none_iff.1 hfind x hx)

end Registry

/-- **What is the last one with one key is looked up by another key of its own.** The look-up finds
it, or one that stands behind it; and it is found exactly if that other key was not put down again
behind it. -/
theorem LastWith.find_other [BEq ι] [LawfulBEq ι] (h : LastWith key k l x after)
    (other : α → ι) :
    ∃ y, Registry.findLast? (fun z => other z == other x) l = some y ∧ (y = x ∨ y ∈ after) ∧
      (y = x ↔ ∀ z ∈ after, other z ≠ other x) := by
  obtain ⟨before, hl⟩ := h.split
  -- what stands before the element is not reached
  have hfind : Registry.findLast? (fun z => other z == other x) l =
      (Registry.findLast? (fun z => other z == other x) after).or (some x) := by
    rw [hl, Registry.findLast?_append, Registry.findLast?_cons_self, Option.or_assoc,
      Option.some_or]
  rw [hfind]
  cases hbehind : Registry.findLast? (fun z => other z == other x) after with
  | none =>
    have hnone := Registry.findLast?_eq_none_iff.1 hbehind
    exact ⟨x, rfl, Or.inl rfl, fun _ => hnone, fun _ => rfl⟩
  | some y =>
    obtain ⟨_, hlast⟩ := Registry.findLast?_eq_some_iff.1 hbehind
    refine ⟨y, rfl, Or.inr hlast.mem, fun hsame => ?_, fun hnone => ?_⟩
    · exact absurd hsame (h.ne_of_mem hlast.mem)
    · exact absurd hlast.key_eq (hnone y hlast.mem)

end

/-! ## The look-ups of a registry -/

namespace Registry

variable {ρ : Type} (r : Registry ρ)

theorem function_eq_ok_iff {id : UInt32} {f : RuntimeFunction} :
    r.function id = .ok f ↔ findLast? (fun g => g.id == id) r.functions = some f := by
  rw [function]
  split <;> simp_all

theorem builtin_eq_ok_iff {id : UInt32} {b : Routine} :
    r.builtin id = .ok b ↔ findLast? (fun c => c.id == id) r.builtins = some b := by
  rw [builtin]
  split <;> simp_all

theorem builtinNamed_eq_ok_iff {name : String} {b : Routine} :
    r.builtinNamed name = .ok b ↔ findLast? (fun c => c.name == name) r.builtins = some b := by
  rw [builtinNamed]
  split <;> simp_all

end Registry

/-- **What is found by its address or its name is found by its number unless the number was
registered again.** Whatever was registered in whatever order, and however calls are redirected: the
function that is found at an address is the last one registered there, its number finds it or one
that was registered later, and it finds it exactly if the number was not registered again later. The
same holds of the builtin that is found by a name. -/
theorem found_by_number_iff {ρ : Type} [Redirecting ρ] (r : Registry ρ) :
    (∀ address f, r.functionAt? address = some f →
      ∃ after, LastWith RuntimeFunction.entry (r.targetOf address) r.functions f after ∧
        ∃ g, r.function f.id = .ok g ∧ (g = f ∨ g ∈ after) ∧
          (g = f ↔ ∀ h ∈ after, h.id ≠ f.id)) ∧
    (∀ name b, r.builtinNamed name = .ok b →
      ∃ after, LastWith Routine.name name r.builtins b after ∧
        ∃ c, r.builtin b.id = .ok c ∧ (c = b ∨ c ∈ after) ∧
          (c = b ↔ ∀ d ∈ after, d.id ≠ b.id)) := by
  constructor
  · intro address f hf
    obtain ⟨after, hlast⟩ := Registry.findLast?_eq_some_iff.1 hf
    obtain ⟨g, hg, hfound⟩ := hlast.find_other RuntimeFunction.id
    exact ⟨after, hlast, g, r.function_eq_ok_iff.2 hg, hfound⟩
  · intro name b hb
    obtain ⟨after, hlast⟩ := Registry.findLast?_eq_some_iff.1 (r.builtinNamed_eq_ok_iff.1 hb)
    obtain ⟨c, hc, hfound⟩ := hlast.find_other Routine.id
    exact ⟨after, hlast, c, r.builtin_eq_ok_iff.2 hc, hfound⟩

/-- A runtime in which a function and a builtin were registered again, under other names and at other
addresses. A call of the function at its first address was redirected. -/
def movedRegistry : Registry :=
  .new 0 [⟨1, "StackGuard", .absolute 0x1000, 0⟩, ⟨1, "StackGuardV2", .absolute 0x2000, 0⟩]
    [⟨7, "ArrayPush", .absolute 0x7000⟩, ⟨7, "ArrayPushFast", .absolute 0x8000⟩] []
    (.trampolines 0 [(.absolute 0x1000, .builtin)]) 0 0

/-- The function is found at its trampoline as it was registered first, which its number does not
find any more. -/
theorem found_by_number_iff_moved :
    movedRegistry.functionAt? (.within (.stub 0 0) 0) =
        some ⟨1, "StackGuard", .absolute 0x1000, 0⟩ ∧
      ∃ after, LastWith RuntimeFunction.entry (.absolute 0x1000) movedRegistry.functions
          ⟨1, "StackGuard", .absolute 0x1000, 0⟩ after ∧
        ∃ g, movedRegistry.function 1 = .ok g ∧
          (g = ⟨1, "StackGuard", .absolute 0x1000, 0⟩ ∨ g ∈ after) ∧
          (g = ⟨1, "StackGuard", .absolute 0x1000, 0⟩ ↔ ∀ h ∈ after, h.id ≠ 1) :=
  ⟨rfl, (found_by_number_iff movedRegistry).1 (.within (.stub 0 0) 0) _ rfl⟩

/-- **Registrations that were overridden are still found**, a function by its first address and a
builtin by its first name, and their numbers find other ones. -/
theorem overridden_found :
    (∃ f, movedRegistry.functionAt? (.absolute 0x1000) = some f ∧
      movedRegistry.function f.id ≠ .ok f) ∧
    ∃ b, movedRegistry.builtinNamed "ArrayPush" = .ok b ∧ movedRegistry.builtin b.id ≠ .ok b := by
  refine ⟨⟨⟨1, "StackGuard", .absolute 0x1000, 0⟩, rfl, ?_⟩,
    ⟨⟨7, "ArrayPush", .absolute 0x7000⟩, ?_, ?_⟩⟩
  · decide
  · decide
  · decide

end CodeReloc
