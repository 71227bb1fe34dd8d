import Mathlib.Tactic.Common

/-!
# Blocks that run to completion and may throw

A synchronous block of a single-threaded program reads and writes the state, and ends by
returning a value or by throwing; a throw keeps what was written before it. Blocks are
`EStateM` programs. `Returns` and `Throws` say how a block ends, and the lemmas below take a
composed block apart into the endings of its pieces, so that what a function can do is read off
its text by `simp`.
-/

namespace Turn

universe u

variable {ε σ τ α β : Type u}

/-- From `s`, the block returns `a` and leaves `s'`. -/
def Returns (x : EStateM ε σ α) (s : σ) (a : α) (s' : σ) : Prop := x.run s = .ok a s'

/-- From `s`, the block throws `e` and leaves `s'`. -/
def Throws (x : EStateM ε σ α) (s : σ) (e : ε) (s' : σ) : Prop := x.run s = .error e s'

/-- The state a block leaves, whichever way it ends. -/
def after (x : EStateM ε σ α) (s : σ) : σ :=
  match x.run s with
  | .ok _ s' => s'
  | .error _ s' => s'

/-- Throws if the condition holds. -/
def throwIf (c : Prop) [Decidable c] (e : ε) : EStateM ε σ PUnit :=
  if c then throw e else pure ⟨⟩

/-- The value, or a throw where there is none. -/
def orThrow (o : Option α) (e : ε) : EStateM ε σ α :=
  match o with
  | some a => pure a
  | none => throw e

/-- A block on a part of the state. -/
def zoom (view : σ → τ) (put : σ → τ → σ) (x : EStateM ε τ α) : EStateM ε σ α := fun s =>
  match x.run (view s) with
  | .ok a t => .ok a (put s t)
  | .error e t => .error e (put s t)

theorem after_cases (x : EStateM ε σ α) (s : σ) :
    (∃ a, Returns x s a (after x s)) ∨ ∃ e, Throws x s e (after x s) := by
  unfold Returns Throws after
  rcases x.run s with ⟨a, s'⟩ | ⟨e, s'⟩
  · exact .inl ⟨a, rfl⟩
  · exact .inr ⟨e, rfl⟩

theorem Returns.after {x : EStateM ε σ α} {s s' : σ} {a : α} (h : Returns x s a s') :
    after x s = s' := by
  unfold Returns at h
  rw [Turn.after, h]

theorem Throws.after {x : EStateM ε σ α} {s s' : σ} {e : ε} (h : Throws x s e s') :
    after x s = s' := by
  unfold Throws at h
  rw [Turn.after, h]

theorem Returns.unique {x : EStateM ε σ α} {s s₁ s₂ : σ} {a₁ a₂ : α} (h₁ : Returns x s a₁ s₁)
    (h₂ : Returns x s a₂ s₂) : a₁ = a₂ ∧ s₁ = s₂ := by
  unfold Returns at h₁ h₂
  rw [h₁] at h₂
  cases h₂
  exact ⟨rfl, rfl⟩

theorem after_bind_pure (x : EStateM ε σ α) (b : β) (s : σ) :
    after (x >>= fun _ => pure b) s = after x s := by
  unfold after
  rw [EStateM.run_bind]
  rcases x.run s with ⟨a, t⟩ | ⟨e, t⟩ <;> rfl

section Simp

variable {s s' : σ} {a b : α} {e e' : ε}

@[simp] theorem returns_pure : Returns (pure a : EStateM ε σ α) s b s' ↔ b = a ∧ s' = s := by
  unfold Returns
  rw [EStateM.run_pure, EStateM.Result.ok.injEq, eq_comm (a := a), eq_comm (a := s)]

@[simp] theorem throws_pure : ¬ Throws (pure a : EStateM ε σ α) s e s' := by
  unfold Throws
  simp

@[simp] theorem returns_throw : ¬ Returns (throw e : EStateM ε σ α) s a s' := by
  show ¬ EStateM.Result.error e s = .ok a s'
  simp

@[simp] theorem throws_throw : Throws (throw e : EStateM ε σ α) s e' s' ↔ e' = e ∧ s' = s := by
  show EStateM.Result.error e s = .error e' s' ↔ _
  rw [EStateM.Result.error.injEq, eq_comm (a := e), eq_comm (a := s)]

@[simp] theorem returns_get {t : σ} :
    Returns (get : EStateM ε σ σ) s t s' ↔ t = s ∧ s' = s := by
  unfold Returns
  rw [EStateM.run_get, EStateM.Result.ok.injEq, eq_comm (a := s), eq_comm (a := s)]

@[simp] theorem throws_get : ¬ Throws (get : EStateM ε σ σ) s e s' := by
  unfold Throws
  simp

@[simp] theorem returns_modify {f : σ → σ} {u : PUnit} :
    Returns (modify f : EStateM ε σ PUnit) s u s' ↔ s' = f s := by
  unfold Returns
  rw [EStateM.run_modify, EStateM.Result.ok.injEq, eq_comm (a := f s)]
  simp

@[simp] theorem throws_modify {f : σ → σ} :
    ¬ Throws (modify f : EStateM ε σ PUnit) s e s' := by
  unfold Throws
  simp

@[simp] theorem returns_bind {x : EStateM ε σ α} {f : α → EStateM ε σ β} {b : β} :
    Returns (x >>= f) s b s' ↔ ∃ a t, Returns x s a t ∧ Returns (f a) t b s' := by
  unfold Returns
  rw [EStateM.run_bind]
  rcases x.run s with ⟨a, t⟩ | ⟨e, t⟩ <;> simp

@[simp] theorem throws_bind {x : EStateM ε σ α} {f : α → EStateM ε σ β} :
    Throws (x >>= f) s e s' ↔
      Throws x s e s' ∨ ∃ a t, Returns x s a t ∧ Throws (f a) t e s' := by
  unfold Returns Throws
  rw [EStateM.run_bind]
  rcases x.run s with ⟨a, t⟩ | ⟨e, t⟩ <;> simp

@[simp] theorem returns_map {x : EStateM ε σ α} {f : α → β} {b : β} :
    Returns (f <$> x) s b s' ↔ ∃ a, Returns x s a s' ∧ b = f a := by
  rw [← bind_pure_comp, returns_bind]
  simp only [returns_pure]
  constructor
  · rintro ⟨a, t, hx, rfl, rfl⟩
    exact ⟨a, hx, rfl⟩
  · rintro ⟨a, hx, rfl⟩
    exact ⟨a, s', hx, rfl, rfl⟩

@[simp] theorem throws_map {x : EStateM ε σ α} {f : α → β} :
    Throws (f <$> x) s e s' ↔ Throws x s e s' := by
  rw [← bind_pure_comp, throws_bind]
  simp only [throws_pure, and_false, exists_false, or_false]

theorem run_tryCatch (x : EStateM ε σ α) (f : ε → EStateM ε σ α) (s : σ) :
    (tryCatch x f).run s =
      match x.run s with
      | .ok a t => .ok a t
      | .error e t => (f e).run t := by
  show EStateM.tryCatch x f s = _
  unfold EStateM.tryCatch EStateM.run
  rcases x s with ⟨a, t⟩ | ⟨e, t⟩ <;> rfl

@[simp] theorem returns_tryCatch {x : EStateM ε σ α} {f : ε → EStateM ε σ α} :
    Returns (tryCatch x f) s a s' ↔
      Returns x s a s' ∨ ∃ e t, Throws x s e t ∧ Returns (f e) t a s' := by
  unfold Returns Throws
  rw [run_tryCatch]
  rcases x.run s with ⟨a, t⟩ | ⟨e, t⟩ <;> simp

@[simp] theorem throws_tryCatch {x : EStateM ε σ α} {f : ε → EStateM ε σ α} :
    Throws (tryCatch x f) s e s' ↔ ∃ e' t, Throws x s e' t ∧ Throws (f e') t e s' := by
  unfold Throws
  rw [run_tryCatch]
  rcases x.run s with ⟨a, t⟩ | ⟨e, t⟩ <;> simp

@[simp] theorem returns_throwIf {c : Prop} [Decidable c] {u : PUnit} :
    Returns (throwIf c e : EStateM ε σ PUnit) s u s' ↔ ¬ c ∧ s' = s := by
  unfold throwIf
  split_ifs with h <;> simp [h]

@[simp] theorem throws_throwIf {c : Prop} [Decidable c] :
    Throws (throwIf c e : EStateM ε σ PUnit) s e' s' ↔ c ∧ e' = e ∧ s' = s := by
  unfold throwIf
  split_ifs with h <;> simp [h]

@[simp] theorem returns_orThrow {o : Option α} :
    Returns (orThrow o e : EStateM ε σ α) s a s' ↔ o = some a ∧ s' = s := by
  unfold orThrow
  rcases o with _ | b <;> simp [eq_comm]

@[simp] theorem throws_orThrow {o : Option α} :
    Throws (orThrow o e : EStateM ε σ α) s e' s' ↔ o = none ∧ e' = e ∧ s' = s := by
  unfold orThrow
  rcases o with _ | b <;> simp

@[simp] theorem returns_ite {c : Prop} [Decidable c] {x y : EStateM ε σ α} :
    Returns (if c then x else y) s a s' ↔ if c then Returns x s a s' else Returns y s a s' := by
  split_ifs <;> rfl

@[simp] theorem throws_ite {c : Prop} [Decidable c] {x y : EStateM ε σ α} :
    Throws (if c then x else y) s e s' ↔ if c then Throws x s e s' else Throws y s e s' := by
  split_ifs <;> rfl

theorem run_zoom (view : σ → τ) (put : σ → τ → σ) (x : EStateM ε τ α) (s : σ) :
    (zoom view put x).run s =
      match x.run (view s) with
      | .ok a t => .ok a (put s t)
      | .error e t => .error e (put s t) := rfl

@[simp] theorem returns_zoom {view : σ → τ} {put : σ → τ → σ} {x : EStateM ε τ α} :
    Returns (zoom view put x) s a s' ↔ ∃ t, Returns x (view s) a t ∧ s' = put s t := by
  unfold Returns
  rw [run_zoom]
  rcases x.run (view s) with ⟨b, t⟩ | ⟨e, t⟩ <;> simp [eq_comm]

@[simp] theorem throws_zoom {view : σ → τ} {put : σ → τ → σ} {x : EStateM ε τ α} :
    Throws (zoom view put x) s e s' ↔ ∃ t, Throws x (view s) e t ∧ s' = put s t := by
  unfold Throws
  rw [run_zoom]
  rcases x.run (view s) with ⟨b, t⟩ | ⟨e, t⟩ <;> simp [eq_comm]

end Simp

end Turn
