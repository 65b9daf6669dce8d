import CodeReloc.External.Reference
import CodeReloc.Proofs.External.Registrations
import CodeReloc.Proofs.External.Trampolines

set_option autoImplicit false

/-!
# Names and trampolines

What was registered at an address has a name there: the last runtime function that is entered at it,
else the last builtin, else the last function of the surroundings (`NamedAt`). A registry answers
for an address by what it stands for, its target, and gives the name of that
(`registeredName?_eq_some_iff`). The target of the address that a call was redirected to is the
function that was called, in the registry after the call and after any further calls
(`targetOf_redirect`), so the name comes out the same.

Main statement: `nameOf_redirect`.
-/

namespace CodeReloc

section

variable {ρ : Type} {r : Registry ρ} {a : Address} {name : String}

/-- Something was registered at the address. -/
def Registry.Registers (r : Registry ρ) (a : Address) : Prop :=
  (∃ f ∈ r.functions, f.entry = a) ∨ (∃ b ∈ r.builtins, b.address = a) ∨
    ∃ f ∈ r.cFunctions, f.address = a

/-- The name of what was registered at an address: runtime functions come first, then builtins, and
of several that are registered alike the last one counts. -/
inductive NamedAt (r : Registry ρ) (a : Address) : String → Prop where
  | function {f : RuntimeFunction} {after : List RuntimeFunction}
      (hf : LastWith RuntimeFunction.entry a r.functions f after) :
      NamedAt r a s!"Runtime::{f.name}"
  | builtin {b : Routine} {after : List Routine} (hnone : ∀ f ∈ r.functions, f.entry ≠ a)
      (hb : LastWith Routine.address a r.builtins b after) :
      NamedAt r a s!"Builtin::{b.name}"
  | cFunction {f : Routine} {after : List Routine} (hnone : ∀ f ∈ r.functions, f.entry ≠ a)
      (hnone' : ∀ b ∈ r.builtins, b.address ≠ a)
      (hf : LastWith Routine.address a r.cFunctions f after) :
      NamedAt r a f.name

theorem NamedAt.registers (h : NamedAt r a name) : r.Registers a := by
  cases h with
  | function hf => exact Or.inl ⟨_, hf.mem, hf.key_eq⟩
  | builtin _ hb => exact Or.inr (Or.inl ⟨_, hb.mem, hb.key_eq⟩)
  | cFunction _ _ hf => exact Or.inr (Or.inr ⟨_, hf.mem, hf.key_eq⟩)

/-- Names do not depend on how calls are redirected. -/
theorem NamedAt.with_redirector (h : NamedAt r a name) (redirector : ρ) :
    NamedAt { r with redirector := redirector } a name := by
  cases h with
  | function hf => exact .function hf
  | builtin hnone hb => exact .builtin hnone hb
  | cFunction hnone hnone' hf => exact .cFunction hnone hnone' hf

/-- What was registered has a name. -/
theorem exists_namedAt (h : r.Registers a) : ∃ name, NamedAt r a name := by
  by_cases hfunction : ∃ f ∈ r.functions, f.entry = a
  · obtain ⟨f, hf, rfl⟩ := hfunction
    obtain ⟨g, after, hlast⟩ := Registry.exists_lastWith RuntimeFunction.entry hf
    exact ⟨_, .function hlast⟩
  have hnone : ∀ f ∈ r.functions, f.entry ≠ a := fun f hf hentry => hfunction ⟨f, hf, hentry⟩
  by_cases hbuiltin : ∃ b ∈ r.builtins, b.address = a
  · obtain ⟨b, hb, rfl⟩ := hbuiltin
    obtain ⟨c, after, hlast⟩ := Registry.exists_lastWith Routine.address hb
    exact ⟨_, .builtin hnone hlast⟩
  have hnone' : ∀ b ∈ r.builtins, b.address ≠ a := fun b hb haddress => hbuiltin ⟨b, hb, haddress⟩
  obtain ⟨f, hf, rfl⟩ := (h.resolve_left hfunction).resolve_left hbuiltin
  obtain ⟨g, after, hlast⟩ := Registry.exists_lastWith Routine.address hf
  exact ⟨_, .cFunction hnone hnone' hlast⟩

/-! ## Answers of a registry -/

variable [Redirecting ρ]

theorem functionAt?_eq_some_iff {f : RuntimeFunction} :
    r.functionAt? a = some f ↔
      ∃ after, LastWith RuntimeFunction.entry (r.targetOf a) r.functions f after :=
  Registry.findLast?_eq_some_iff

theorem functionAt?_eq_none_iff :
    r.functionAt? a = none ↔ ∀ f ∈ r.functions, f.entry ≠ r.targetOf a :=
  Registry.findLast?_eq_none_iff

/-- **The name of what was registered is that of the target.** -/
theorem registeredName?_eq_some_iff :
    r.registeredName? a = some name ↔ NamedAt r (r.targetOf a) name := by
  rw [Registry.registeredName?]
  constructor
  · intro h
    cases hfunction : r.functionAt? a with
    | some f =>
      obtain ⟨after, hlast⟩ := functionAt?_eq_some_iff.1 hfunction
      simp only [hfunction, Option.some.injEq] at h
      exact h ▸ .function hlast
    | none =>
      have hnone := functionAt?_eq_none_iff.1 hfunction
      simp only [hfunction] at h
      split at h
      · rename_i b hbuiltin
        obtain ⟨after, hlast⟩ := Registry.findLast?_eq_some_iff.1 hbuiltin
        cases h
        exact .builtin hnone hlast
      · rename_i hbuiltin
        have hnone' := Registry.findLast?_eq_none_iff.1 hbuiltin
        obtain ⟨f, hf, rfl⟩ := Option.map_eq_some_iff.1 h
        obtain ⟨after, hlast⟩ := Registry.findLast?_eq_some_iff.1 hf
        exact .cFunction hnone hnone' hlast
  · intro h
    cases h with
    | function hf =>
      have hfunction := functionAt?_eq_some_iff.2 ⟨_, hf⟩
      simp only [hfunction]
    | builtin hnone hb =>
      have hfunction := functionAt?_eq_none_iff.2 hnone
      have hbuiltin := Registry.findLast?_eq_some_iff.2 ⟨_, hb⟩
      simp only [hfunction, hbuiltin]
    | cFunction hnone hnone' hf =>
      have hfunction := functionAt?_eq_none_iff.2 hnone
      have hbuiltin := Registry.findLast?_eq_none_iff.2 hnone'
      have hlast := Registry.findLast?_eq_some_iff.2 ⟨_, hf⟩
      simp only [hfunction, hbuiltin, hlast, Option.map_some]

theorem registeredName?_eq_none (h : ¬r.Registers (r.targetOf a)) : r.registeredName? a = none := by
  rw [Option.eq_none_iff_forall_ne_some]
  intro name hname
  exact h (registeredName?_eq_some_iff.1 hname).registers

/-- Whatever lies at an address, the name of what was registered comes first. -/
theorem nameOf_eq_of_namedAt (h : NamedAt r (r.targetOf a) name) : r.nameOf a = some name := by
  rw [Registry.nameOf, registeredName?_eq_some_iff.2 h]

theorem targetOf_of_resolve_eq_none (h : Redirecting.resolve r.redirector a = none) :
    r.targetOf a = a := by
  rw [Registry.targetOf, h]

theorem targetOf_of_resolve (callee : Callee)
    (h : Redirecting.resolve r.redirector a = some callee) : r.targetOf a = callee.1 := by
  rw [Registry.targetOf, h]

end

/-! ## Redirected calls -/

namespace Registry

/-- The registry after further calls were redirected. -/
def afterCalls {ρ : Type} [Redirecting ρ] (r : Registry ρ) (calls : List Callee) : Registry ρ :=
  calls.foldl (fun r callee => (r.redirect callee.1 callee.2).2) r

/-- Calls change nothing but the redirector. -/
theorem afterCalls_eq (r : Registry) (calls : List Callee) :
    r.afterCalls calls = { r with redirector := (r.redirector.redirectAll calls).2 } := by
  induction calls generalizing r with
  | nil => rfl
  | cons callee calls ih =>
    have hrest := ih (r.redirect callee.1 callee.2).2
    exact hrest

/-- What was registered stays registered. -/
theorem afterCalls_redirect_eq (r : Registry) (a : Address) (callType : CallType)
    (later : List Callee) :
    ∃ redirector,
      (r.redirect a callType).2.afterCalls later = { r with redirector := redirector } :=
  ⟨_, afterCalls_eq (r.redirect a callType).2 later⟩

/-- **What a call was redirected to stands for the function that was called**, and keeps doing so
after any further calls. -/
theorem targetOf_redirect (r : Registry) (a : Address) (callType : CallType)
    (later : List Callee) :
    ((r.redirect a callType).2.afterCalls later).targetOf (r.redirect a callType).1 = a := by
  rw [afterCalls_eq]
  obtain ⟨id, functions, builtins, cFunctions, redirector, constants, fields, slots, roots⟩ := r
  cases redirector with
  | direct =>
    have hdirect : (Redirector.direct.redirectAll later).2 = .direct := by
      induction later with
      | nil => rfl
      | cons callee later ih => exact ih
    apply targetOf_of_resolve_eq_none
    change (Redirector.direct.redirectAll later).2.resolve a = none
    rw [hdirect]
    rfl
  | trampolines runtime made =>
    obtain ⟨stub, made', hcall, hredirects⟩ := redirect_inv runtime made (a, callType)
    obtain ⟨stubs, made'', hlater, hredirects'⟩ := redirectAll_inv runtime made' later
    cases hredirects.stubs with
    | cons hstub _ =>
      have hresolve := resolve_eq_some_iff.2 (hstub.mono hredirects'.kept)
      refine targetOf_of_resolve (a, callType) ?_
      simp only [redirect, Redirecting.redirect, Redirecting.resolve, hcall, hlater]
      exact hresolve

end Registry

/-- **Redirection does not change names.** In whatever state earlier calls have left the registry,
and whatever is redirected later: an address where something was registered and that is no
trampoline itself, and the address that calls of it are redirected to, are answered for alike, by
the last runtime function that is entered there, and have the same name, that of the last runtime
function, else of the last builtin, else of the last function of the surroundings. The reference to
a function by its number is named after the last function with the entry of the one that the number
finds. -/
theorem nameOf_redirect (r : Registry) (later : List Callee) :
    (∀ a callType,
      let stub := (r.redirect a callType).1
      let after := (r.redirect a callType).2.afterCalls later
      r.Registers a → after.redirector.resolve a = none →
        after.functionAt? stub = after.functionAt? a ∧
        (∀ f, after.functionAt? a = some f ↔
          ∃ behind, LastWith RuntimeFunction.entry a r.functions f behind) ∧
        ∃ name, NamedAt r a name ∧ after.nameOf stub = some name ∧
          after.nameOf a = some name) ∧
    ∀ id f, r.function id = .ok f →
      ∃ stub r' g behind, r.functionReference id = .ok (stub, r') ∧
        LastWith RuntimeFunction.entry f.entry r.functions g behind ∧
        (r'.afterCalls later).functionAt? stub = some g ∧
        (r'.afterCalls later).nameOf stub = some s!"Runtime::{g.name}" := by
  constructor
  · intro a callType stub after hregistered hresolve
    have hstub : after.targetOf stub = a := r.targetOf_redirect a callType later
    have hself : after.targetOf a = a := targetOf_of_resolve_eq_none hresolve
    obtain ⟨redirector, hafter⟩ : ∃ redirector, after = { r with redirector := redirector } :=
      r.afterCalls_redirect_eq a callType later
    have hfunctions : after.functions = r.functions := by rw [hafter]
    obtain ⟨name, hname⟩ := exists_namedAt hregistered
    have hname' : NamedAt after a name := hafter ▸ hname.with_redirector redirector
    refine ⟨?_, ?_, name, hname, ?_, ?_⟩
    · rw [Registry.functionAt?, Registry.functionAt?, hstub, hself]
    · intro f
      rw [functionAt?_eq_some_iff, hself, hfunctions]
    · exact nameOf_eq_of_namedAt (hstub.symm ▸ hname')
    · exact nameOf_eq_of_namedAt (hself.symm ▸ hname')
  · intro id f hf
    obtain ⟨_, hlast⟩ := Registry.findLast?_eq_some_iff.1 (r.function_eq_ok_iff.1 hf)
    obtain ⟨g, behind, hg⟩ := Registry.exists_lastWith RuntimeFunction.entry hlast.mem
    obtain ⟨stub, r', hredirect⟩ : ∃ stub r', r.redirect f.entry .builtin = (stub, r') :=
      ⟨_, _, rfl⟩
    have hreference : r.functionReference id = .ok (stub, r') := by
      rw [Registry.functionReference, hf, ← hredirect]
      rfl
    have htarget : (r'.afterCalls later).targetOf stub = f.entry := by
      have h := r.targetOf_redirect f.entry .builtin later
      rwa [hredirect] at h
    obtain ⟨redirector, hafter⟩ :
        ∃ redirector, r'.afterCalls later = { r with redirector := redirector } := by
      have h := r.afterCalls_redirect_eq f.entry .builtin later
      rwa [hredirect] at h
    have hname : NamedAt (r'.afterCalls later) f.entry s!"Runtime::{g.name}" :=
      hafter ▸ (NamedAt.function hg).with_redirector redirector
    refine ⟨stub, r', g, behind, hreference, hg, ?_, ?_⟩
    · rw [functionAt?_eq_some_iff, htarget, hafter]
      exact ⟨behind, hg⟩
    · exact nameOf_eq_of_namedAt (htarget.symm ▸ hname)

/-- Two functions with one entry, and builtins that share their addresses with them and with a
function of the surroundings. -/
def sharedRegistry : Registry :=
  .new 0 [⟨1, "StackGuard", .absolute 0x1000, 0⟩, ⟨2, "Throw", .absolute 0x1000, 1⟩]
    [⟨7, "ArrayPush", .absolute 0x1000⟩, ⟨8, "ArrayPop", .absolute 0x2000⟩]
    [⟨3, "c_array_pop", .absolute 0x2000⟩] (.trampolines 0 [(.absolute 0x1000, .builtin)]) 0 4

/-- A builtin that shares its address with a function of the surroundings, and a later call. -/
theorem nameOf_redirect_builtin :
    let stub := (sharedRegistry.redirect (.absolute 0x2000) .directApi).1
    let after := (sharedRegistry.redirect (.absolute 0x2000) .directApi).2.afterCalls
      [(.absolute 0x1000, .builtinFp)]
    sharedRegistry.Registers (.absolute 0x2000) ∧
      after.redirector.resolve (.absolute 0x2000) = none ∧
      stub = .within (.stub 0 1) 0 ∧ after.functionAt? stub = after.functionAt? (.absolute 0x2000) ∧
      ∃ name, NamedAt sharedRegistry (.absolute 0x2000) name ∧ after.nameOf stub = some name ∧
        after.nameOf (.absolute 0x2000) = some name := by
  have hregistered : sharedRegistry.Registers (.absolute 0x2000) :=
    Or.inr (Or.inl ⟨⟨8, "ArrayPop", .absolute 0x2000⟩, by simp [sharedRegistry, Registry.new], rfl⟩)
  obtain ⟨hfunction, -, hname⟩ :=
    (nameOf_redirect sharedRegistry [(.absolute 0x1000, .builtinFp)]).1 (.absolute 0x2000)
      .directApi hregistered rfl
  exact ⟨hregistered, rfl, rfl, hfunction, hname⟩

end CodeReloc
