/-!
Computations on a state that may fail. A failure keeps the state that was reached, so that whoever
goes on after it goes on from there.
-/

namespace TxnDeps

def Step (σ ε α : Type) := σ → Except ε α × σ

namespace Step

variable {σ ε α β : Type}

def run (step : Step σ ε α) (s : σ) : Except ε α × σ := step s

protected def pure (a : α) : Step σ ε α := fun s => (.ok a, s)

protected def bind (step : Step σ ε α) (next : α → Step σ ε β) : Step σ ε β := fun s =>
  match step s with
  | (.ok a, s') => next a s'
  | (.error e, s') => (.error e, s')

instance : Monad (Step σ ε) where
  pure := Step.pure
  bind := Step.bind

def fail (e : ε) : Step σ ε α := fun s => (.error e, s)

def get : Step σ ε σ := fun s => (.ok s, s)

def set (s : σ) : Step σ ε Unit := fun _ => (.ok (), s)

def modify (f : σ → σ) : Step σ ε Unit := fun s => (.ok (), f s)

def ofExcept : Except ε α → Step σ ε α
  | .ok a => Step.pure a
  | .error e => fail e

def mapError {δ : Type} (f : ε → δ) (step : Step σ ε α) : Step σ δ α := fun s =>
  match step s with
  | (.ok a, s') => (.ok a, s')
  | (.error e, s') => (.error (f e), s')

def times (step : Step σ ε α) : (n : Nat) → Step σ ε (List α)
  | 0 => pure []
  | n + 1 => do
    let a ← step
    let rest ← times step n
    pure (a :: rest)

@[simp]
theorem run_pure (a : α) (s : σ) : (pure a : Step σ ε α).run s = (.ok a, s) := rfl

@[simp]
theorem run_fail (e : ε) (s : σ) : (fail e : Step σ ε α).run s = (.error e, s) := rfl

@[simp]
theorem run_get (s : σ) : (get : Step σ ε σ).run s = (.ok s, s) := rfl

theorem run_bind (step : Step σ ε α) (next : α → Step σ ε β) (s : σ) :
    (step >>= next).run s =
      match step.run s with
      | (.ok a, s') => (next a).run s'
      | (.error e, s') => (.error e, s') := rfl

theorem run_bind_of_ok {step : Step σ ε α} {next : α → Step σ ε β} {s s' : σ} {a : α}
    (h : step.run s = (.ok a, s')) : (step >>= next).run s = (next a).run s' := by
  rw [run_bind, h]

theorem run_bind_of_error {step : Step σ ε α} {next : α → Step σ ε β} {s s' : σ} {e : ε}
    (h : step.run s = (.error e, s')) : (step >>= next).run s = (.error e, s') := by
  rw [run_bind, h]

theorem run_map_of_ok {step : Step σ ε α} {f : α → β} {s s' : σ} {a : α}
    (h : step.run s = (.ok a, s')) : (f <$> step).run s = (.ok (f a), s') :=
  run_bind_of_ok h

theorem run_map_of_error {step : Step σ ε α} {f : α → β} {s s' : σ} {e : ε}
    (h : step.run s = (.error e, s')) : (f <$> step).run s = (.error e, s') :=
  run_bind_of_error h

theorem run_map_snd (step : Step σ ε α) (f : α → β) (s : σ) :
    ((f <$> step).run s).2 = (step.run s).2 := by
  rcases h : step.run s with ⟨e | a, s'⟩
  · rw [run_map_of_error h]
  · rw [run_map_of_ok h]

theorem exists_of_run_bind {step : Step σ ε α} {next : α → Step σ ε β} {s s' : σ} {b : β}
    (h : (step >>= next).run s = (.ok b, s')) :
    ∃ a s₁, step.run s = (.ok a, s₁) ∧ (next a).run s₁ = (.ok b, s') := by
  rw [run_bind] at h
  rcases hstep : step.run s with ⟨e | a, s₁⟩
  · rw [hstep] at h
    cases h
  · rw [hstep] at h
    exact ⟨a, s₁, rfl, h⟩

end Step

end TxnDeps
