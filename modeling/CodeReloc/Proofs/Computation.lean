import CodeReloc.Fault

set_option autoImplicit false

/-!
# Computations that answer

A computation on a state ends in a fault, in an exceeded limit or with an answer, and in the last
two cases it leaves a state behind. `Gives` says that it answers, with what and in which state, and
`Ends` that it ends in one of these two ways.
`Reaches` says that it does not fault and that whatever it ends in meets a condition; `Settles` asks
the condition of answers only. A sequence of computations is taken apart by `gives_bind` and
`ends_bind` and put together by `Reaches.bind` and `Settles.bind`.
-/

namespace CodeReloc

/-- A computation on a state that may fault or meet a limit. -/
abbrev Computation (σ α : Type) := ExceptT LimitExceeded (StateT σ (Except Fault)) α

variable {σ α β : Type} {s s' : σ}

/-- A sequence of computations goes on only from an answer. -/
theorem Computation.bind_apply (x : Computation σ α) (f : α → Computation σ β) (s : σ) :
    (x >>= f) s = x s >>= fun (answer, mid) =>
      match answer with
      | .ok v => f v mid
      | .error e => .ok (.error e, mid) := by
  change (x s >>= _) = _
  cases x s with
  | error fault => rfl
  | ok ended =>
    obtain ⟨answer, mid⟩ := ended
    cases answer <;> rfl

theorem Computation.get_apply (s : σ) : (get : Computation σ σ) s = .ok (.ok s, s) := rfl

/-- A call that has no state leaves the state alone. -/
theorem Computation.lift_apply (x : Except Fault α) (s : σ) :
    (liftM x : Computation σ α) s = x >>= fun v => .ok (.ok v, s) := by
  cases x <;> rfl

/-! ## Answers -/

/-- The computation answers `v` and leaves `s'` behind. -/
def Gives (x : Computation σ α) (s : σ) (v : α) (s' : σ) : Prop := x s = .ok (.ok v, s')

theorem gives_pure {v w : α} : Gives (pure v : Computation σ α) s w s' ↔ w = v ∧ s' = s := by
  constructor
  · intro h
    cases h
    exact ⟨rfl, rfl⟩
  · rintro ⟨rfl, rfl⟩
    rfl

theorem gives_get {v : σ} : Gives (get : Computation σ σ) s v s' ↔ v = s ∧ s' = s := by
  constructor
  · intro h
    cases h
    exact ⟨rfl, rfl⟩
  · rintro ⟨rfl, rfl⟩
    rfl

theorem gives_modify {f : σ → σ} {v : PUnit} :
    Gives (modify f : Computation σ PUnit) s v s' ↔ s' = f s := by
  constructor
  · intro h
    cases h
    rfl
  · rintro rfl
    rfl

theorem gives_set {t : σ} {v : PUnit} : Gives (set t : Computation σ PUnit) s v s' ↔ s' = t := by
  constructor
  · intro h
    cases h
    rfl
  · rintro rfl
    rfl

theorem gives_lift {x : Except Fault α} {v : α} :
    Gives (liftM x : Computation σ α) s v s' ↔ x = .ok v ∧ s' = s := by
  rw [Gives, Computation.lift_apply]
  constructor
  · intro h
    obtain ⟨w, hx, h⟩ := bind_eq_ok.1 h
    cases h
    exact ⟨hx, rfl⟩
  · rintro ⟨hx, rfl⟩
    exact bind_eq_ok.2 ⟨v, hx, rfl⟩

theorem gives_bind {x : Computation σ α} {f : α → Computation σ β} {w : β} :
    Gives (x >>= f) s w s' ↔ ∃ v mid, Gives x s v mid ∧ Gives (f v) mid w s' := by
  rw [Gives, Computation.bind_apply]
  constructor
  · intro h
    obtain ⟨⟨answer, mid⟩, hx, hf⟩ := bind_eq_ok.1 h
    cases answer with
    | error e => cases hf
    | ok v => exact ⟨v, mid, hx, hf⟩
  · rintro ⟨v, mid, hx, hf⟩
    exact bind_eq_ok.2 ⟨_, hx, hf⟩

theorem gives_discard {x : Computation σ α} {u : PUnit} :
    Gives (discard x) s u s' ↔ ∃ v, Gives x s v s' := by
  change Gives (x >>= fun _ => pure ⟨⟩) s u s' ↔ _
  rw [gives_bind]
  constructor
  · rintro ⟨v, mid, hx, hpure⟩
    obtain ⟨-, rfl⟩ := gives_pure.1 hpure
    exact ⟨v, hx⟩
  · rintro ⟨v, hx⟩
    exact ⟨v, s', hx, gives_pure.2 ⟨rfl, rfl⟩⟩

/-! ## Ends -/

/-- The computation ends with an answer or in an exceeded limit, and leaves `s'` behind. -/
def Ends (x : Computation σ α) (s : σ) (answer : Except LimitExceeded α) (s' : σ) : Prop :=
  x s = .ok (answer, s')

/-- An exceeded limit ends a sequence; otherwise its last part does. -/
theorem ends_bind {x : Computation σ α} {f : α → Computation σ β}
    {answer : Except LimitExceeded β} :
    Ends (x >>= f) s answer s' ↔
      (∃ v mid, Gives x s v mid ∧ Ends (f v) mid answer s') ∨
        ∃ e, Ends x s (.error e) s' ∧ answer = .error e := by
  rw [Ends, Computation.bind_apply]
  constructor
  · intro h
    obtain ⟨⟨first, mid⟩, hx, hf⟩ := bind_eq_ok.1 h
    cases first with
    | error e =>
      cases hf
      exact Or.inr ⟨e, hx, rfl⟩
    | ok v => exact Or.inl ⟨v, mid, hx, hf⟩
  · rintro (⟨v, mid, hx, hf⟩ | ⟨e, hx, rfl⟩)
    · exact bind_eq_ok.2 ⟨_, hx, hf⟩
    · exact bind_eq_ok.2 ⟨_, hx, rfl⟩

/-- The computation does not fault, and what it ends in meets the condition. -/
def Reaches (x : Computation σ α) (s : σ) (post : Except LimitExceeded α → σ → Prop) : Prop :=
  ∃ answer s', x s = .ok (answer, s') ∧ post answer s'

namespace Reaches

variable {x : Computation σ α} {post post' : Except LimitExceeded α → σ → Prop}

theorem mono (h : Reaches x s post) (hpost : ∀ answer s', post answer s' → post' answer s') :
    Reaches x s post' := by
  obtain ⟨answer, s', hx, hends⟩ := h
  exact ⟨answer, s', hx, hpost _ _ hends⟩

theorem of_gives {v : α} (h : Gives x s v s') (hpost : post (.ok v) s') : Reaches x s post :=
  ⟨.ok v, s', h, hpost⟩

/-- What a computation ends in meets the condition. -/
theorem of_ends {answer : Except LimitExceeded α} (h : Reaches x s post)
    (hx : Ends x s answer s') : post answer s' := by
  obtain ⟨answer', mid, hends, hpost⟩ := h
  cases hx.symm.trans hends
  exact hpost

/-- What a computation answers meets the condition. -/
theorem of_answer {v : α} (h : Reaches x s post) (hx : Gives x s v s') : post (.ok v) s' :=
  h.of_ends hx

/-- An exceeded limit ends a sequence; an answer is carried on. -/
theorem bind {f : α → Computation σ β} {last : Except LimitExceeded β → σ → Prop}
    (h : Reaches x s post) (hlimit : ∀ e mid, post (.error e) mid → last (.error e) mid)
    (hnext : ∀ v mid, post (.ok v) mid → Reaches (f v) mid last) : Reaches (x >>= f) s last := by
  obtain ⟨answer, mid, hx, hpost⟩ := h
  cases answer with
  | error e =>
    refine ⟨.error e, mid, ?_, hlimit e mid hpost⟩
    rw [Computation.bind_apply, hx]
    rfl
  | ok v =>
    obtain ⟨answer, s', hf, hlast⟩ := hnext v mid hpost
    refine ⟨answer, s', ?_, hlast⟩
    rw [Computation.bind_apply, hx]
    exact hf

end Reaches

/-- The computation does not fault, and what it answers meets the condition. -/
def Settles (x : Computation σ α) (s : σ) (post : α → σ → Prop) : Prop :=
  Reaches x s fun answer s' => ∀ v, answer = .ok v → post v s'

namespace Settles

variable {x : Computation σ α} {post post' : α → σ → Prop}

theorem mono (h : Settles x s post) (hpost : ∀ v s', post v s' → post' v s') :
    Settles x s post' :=
  Reaches.mono h fun _ _ hends v hv => hpost _ _ (hends v hv)

theorem of_gives {v : α} (h : Gives x s v s') (hpost : post v s') : Settles x s post := by
  refine Reaches.of_gives h ?_
  intro w hw
  cases hw
  exact hpost

/-- What a computation answers meets the condition. -/
theorem of_answer {v : α} (h : Settles x s post) (hx : Gives x s v s') : post v s' :=
  Reaches.of_answer h hx v rfl

/-- What an answer meets, it meets as an answer. -/
theorem answered (h : Settles x s post) : Settles x s fun v s' => Gives x s v s' ∧ post v s' := by
  obtain ⟨answer, s', hx, hends⟩ := h
  refine ⟨answer, s', hx, ?_⟩
  rintro v rfl
  exact ⟨hx, hends v rfl⟩

/-- A sequence settles what its last part does. -/
theorem bind {f : α → Computation σ β} {last : β → σ → Prop} (h : Settles x s post)
    (hnext : ∀ v mid, post v mid → Settles (f v) mid last) : Settles (x >>= f) s last := by
  refine Reaches.bind h ?_ ?_
  · intro e mid _ v hv
    cases hv
  · intro v mid hends
    exact hnext v mid (hends v rfl)

/-- A sequence settles anything if its first part exceeds a limit. -/
theorem bind_limit {f : α → Computation σ β} {e : LimitExceeded} {last : β → σ → Prop}
    (h : Ends x s (.error e) s') : Settles (x >>= f) s last := by
  refine ⟨.error e, s', ends_bind.2 (Or.inr ⟨e, h, rfl⟩), ?_⟩
  intro v hv
  cases hv

/-- A part that is known to answer is passed over. -/
theorem bind_gives {f : α → Computation σ β} {v : α} {last : β → σ → Prop} (h : Gives x s v s')
    (hnext : Settles (f v) s' last) : Settles (x >>= f) s last := by
  have hpassed : Settles x s fun w mid => w = v ∧ mid = s' := of_gives h ⟨rfl, rfl⟩
  refine hpassed.bind ?_
  rintro _ _ ⟨rfl, rfl⟩
  exact hnext

end Settles

end CodeReloc
