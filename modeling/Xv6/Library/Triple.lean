import Mathlib

/-!
# Pre- and postconditions of state-passing programs that may fail

Programs in `StateT σ (Except ε)`. `Spec P m Q bad` is a triple with a set of
forbidden errors: from a state satisfying `P`, a run of `m` either returns
`a` in a state satisfying `Q a`, or stops with an error that is not `bad`.
Errors outside `bad` are allowed, so the triple says which failures a
program can never reach, and what holds when it returns.

The rules follow the shape of the programs (`pure`, `get`, `set`,
`modify`, `throw`, `>>=`, `if`, `List.forM`), with the rule of consequence
(`Spec.mono`); an invariant `I` kept by `m` is `Spec I m (fun _ => I) bad`.
-/

namespace StateExcept

variable {σ ε α β : Type}

/-- From a state satisfying `P`, `m` returns in a state satisfying `Q` of its
result, or stops with an error that is not `bad`. -/
def Spec (P : σ → Prop) (m : StateT σ (Except ε) α) (Q : α → σ → Prop) (bad : ε → Prop) : Prop :=
  ∀ s, P s → match m.run s with
    | .ok (a, s') => Q a s'
    | .error e => ¬ bad e

variable {P P' : σ → Prop} {Q Q' : α → σ → Prop} {bad : ε → Prop}

theorem spec_throw {e : ε} (he : ¬ bad e) : Spec P (throw e : StateT σ (Except ε) α) Q bad :=
  fun _ _ => he

/-! Invariants: `Spec I m (fun _ => I) bad`. -/

theorem spec_get_keep {I : σ → Prop} : Spec I (get : StateT σ (Except ε) σ) (fun _ => I) bad :=
  fun _ hs => hs

theorem spec_pure_keep {I : σ → Prop} (a : α) :
    Spec I (pure a : StateT σ (Except ε) α) (fun _ => I) bad :=
  fun _ hs => hs

/-- `pure a` keeps an invariant and returns `a`. -/
theorem spec_pure_eq {I : σ → Prop} (a : α) :
    Spec I (pure a : StateT σ (Except ε) α) (fun r s => r = a ∧ I s) bad :=
  fun _ hs => ⟨rfl, hs⟩

theorem spec_modify_keep {I : σ → Prop} {f : σ → σ} (hf : ∀ s, I s → I (f s)) :
    Spec I (modify f : StateT σ (Except ε) Unit) (fun _ => I) bad :=
  fun s hs => hf s hs

/-- A run computed in full is a triple from its start state. -/
theorem spec_of_run {m : StateT σ (Except ε) α} {s₀ s₁ : σ} {a : α} (h : m.run s₀ = .ok (a, s₁)) :
    Spec (· = s₀) m (fun x s => x = a ∧ s = s₁) bad := by
  rintro s rfl
  rw [h]
  exact ⟨rfl, rfl⟩

/-- `pure a` from a fixed state. -/
theorem spec_pure_at {s₀ : σ} {a : α} (h : Q a s₀) :
    Spec (· = s₀) (pure a : StateT σ (Except ε) α) Q bad := by
  rintro s rfl
  exact h

/-- `modify f` from a fixed state. -/
theorem spec_modify_eq {s₀ : σ} (f : σ → σ) :
    Spec (· = s₀) (modify f : StateT σ (Except ε) Unit) (fun _ s => s = f s₀) bad := by
  rintro s rfl
  rfl

/-- The rule of consequence. -/
theorem Spec.mono {m : StateT σ (Except ε) α} (h : Spec P m Q bad) (hP : ∀ s, P' s → P s)
    (hQ : ∀ a s, Q a s → Q' a s) : Spec P' m Q' bad := by
  intro s hs
  have := h s (hP s hs)
  split at this
  · exact hQ _ _ this
  · exact this

/-- A triple forbids any fewer errors than it names. -/
theorem Spec.of_bad {m : StateT σ (Except ε) α} {bad' : ε → Prop} (h : Spec P m Q bad)
    (hb : ∀ e, bad' e → bad e) : Spec P m Q bad' := by
  intro s hs
  have := h s hs
  split at this
  · exact this
  · exact fun he => this (hb _ he)

/-- Two triples of one program hold together, and an error either one
forbids cannot happen. -/
theorem Spec.and {P₁ P₂ : σ → Prop} {Q₁ Q₂ : α → σ → Prop} {bad₁ bad₂ : ε → Prop}
    {m : StateT σ (Except ε) α} (h₁ : Spec P₁ m Q₁ bad₁) (h₂ : Spec P₂ m Q₂ bad₂) :
    Spec (fun s => P₁ s ∧ P₂ s) m (fun a s => Q₁ a s ∧ Q₂ a s) (fun e => bad₁ e ∨ bad₂ e) := by
  intro s hs
  have e₁ := h₁ s hs.1
  have e₂ := h₂ s hs.2
  split
  · rename_i a s' hrun
    rw [hrun] at e₁ e₂
    exact ⟨e₁, e₂⟩
  · rename_i e hrun
    rw [hrun] at e₁ e₂
    exact not_or.mpr ⟨e₁, e₂⟩

/-- Sequencing: what `m` establishes is what `f` needs. -/
theorem spec_bind {R : α → σ → Prop} {Q : β → σ → Prop} {m : StateT σ (Except ε) α}
    {f : α → StateT σ (Except ε) β} (hm : Spec P m R bad) (hf : ∀ a, Spec (R a) (f a) Q bad) :
    Spec P (m >>= f) Q bad := by
  intro s hs
  have h := hm s hs
  rw [StateT.run_bind]
  split at h
  · rename_i a s₁ hrun
    rw [hrun]
    exact hf a s₁ h
  · rename_i e hrun
    rw [hrun]
    exact h

theorem spec_ite {c : Prop} [Decidable c] {m₁ m₂ : StateT σ (Except ε) α}
    (h₁ : c → Spec P m₁ Q bad) (h₂ : ¬ c → Spec P m₂ Q bad) :
    Spec P (if c then m₁ else m₂) Q bad := by
  by_cases hc : c
  · rw [if_pos hc]
    exact h₁ hc
  · rw [if_neg hc]
    exact h₂ hc

/-- An invariant each turn of a loop keeps, the loop keeps. -/
theorem spec_forM_keep {γ : Type} {I : σ → Prop} {f : γ → StateT σ (Except ε) PUnit} :
    ∀ xs : List γ, (∀ x ∈ xs, Spec I (f x) (fun _ => I) bad) → Spec I (xs.forM f) (fun _ => I) bad
  | [], _ => spec_pure_keep _
  | x :: xs, h => by
    show Spec I (f x >>= fun _ => xs.forM f) (fun _ => I) bad
    exact spec_bind (h x List.mem_cons_self)
      fun _ => spec_forM_keep xs fun y hy => h y (List.mem_cons_of_mem _ hy)

/-- With no error forbidden, every program meets the empty postcondition. -/
theorem spec_true {m : StateT σ (Except ε) α} : Spec P m (fun _ _ => True) (fun _ => False) := by
  intro s _
  split
  · trivial
  · exact not_false

/-- A program that returns `a` without failing, whatever the state, meets a
postcondition of its result. -/
theorem spec_returns {a : α} {R : α → Prop} (h : R a) :
    Spec P (pure a : StateT σ (Except ε) α) (fun r _ => R r) bad :=
  fun _ _ => h

/-- A precondition that does not depend on the state may be assumed for the
proof. -/
theorem Spec.of_const {c : Prop} {m : StateT σ (Except ε) α} (h : c → Spec (fun _ => True) m Q bad) :
    Spec (fun _ => c) m Q bad :=
  fun s hc => h hc s True.intro

/-- A precondition that fixes part of the state may be assumed for the proof. -/
theorem spec_of_forall {m : StateT σ (Except ε) α}
    (h : ∀ s₀, P s₀ → Spec (fun s => s = s₀) m Q bad) : Spec P m Q bad :=
  fun s hs => h s hs s rfl

/-- A fact in the precondition that does not depend on the state may be
assumed for the proof. -/
theorem Spec.of_fact {c : Prop} {m : StateT σ (Except ε) α} (h : c → Spec P m Q bad) :
    Spec (fun s => c ∧ P s) m Q bad :=
  fun s hs => h hs.1 s hs.2

/-- An existential precondition may be opened for the proof. -/
theorem spec_exists {γ : Type} {P : γ → σ → Prop} {m : StateT σ (Except ε) α}
    (h : ∀ x, Spec (P x) m Q bad) : Spec (fun s => ∃ x, P x s) m Q bad :=
  fun s ⟨x, hx⟩ => h x s hx

end StateExcept
