/-!
# Runs of a partial step function that can fail

A system takes events `e : ε` in states `σ`. `step s e` is `none` where the
event cannot happen in `s`, `some (.error x)` where it fails with `x`, and
`some (.ok s')` where it leads to `s'`. `runSteps` takes a list of events in
turn and stops at the first that fails or cannot happen.

An invariant that every successful step keeps holds after every successful run
(`runSteps_inv`). What the failing steps of the invariant's states say of their
errors holds of the error of every failed run (`runSteps_error`).
-/

namespace Trace

variable {σ ε χ : Type} (step : σ → ε → Option (Except χ σ))

/-- The run of the events `es` from `s`. -/
def runSteps : σ → List ε → Option (Except χ σ)
  | s, [] => some (.ok s)
  | s, e :: es =>
    match step s e with
    | some (.ok s') => runSteps s' es
    | r => r

variable {step}

@[simp] theorem runSteps_nil (s : σ) : runSteps step s [] = some (.ok s) := rfl

/-- A run from `e :: es` takes a successful step and runs on, or ends with
the outcome of `e`. -/
theorem runSteps_cons_eq {s : σ} {e : ε} {es : List ε} {r : Option (Except χ σ)}
    (h : runSteps step s (e :: es) = r) :
    (∃ s₁, step s e = some (.ok s₁) ∧ runSteps step s₁ es = r) ∨ step s e = r := by
  rw [runSteps] at h
  split at h
  · rename_i s₁ hs
    exact .inl ⟨s₁, hs, h⟩
  · exact .inr h

section Invariant

variable {I : σ → Prop} (hstep : ∀ s e s', I s → step s e = some (.ok s') → I s')
include hstep

/-- An invariant kept by every successful step holds after every successful
run. -/
theorem runSteps_inv : ∀ (es : List ε) {s s' : σ}, I s → runSteps step s es = some (.ok s') → I s'
  | [], s, s', hs, h => by
    rw [runSteps_nil] at h
    cases h
    exact hs
  | e :: es, s, s', hs, h => by
    rcases runSteps_cons_eq h with ⟨s₁, h₁, hrest⟩ | hlast
    · exact runSteps_inv es (hstep s e s₁ hs h₁) hrest
    · exact hstep s e s' hs hlast

/-- What every failing step from an invariant state says of its error holds
of the error that ends a run. -/
theorem runSteps_error {P : χ → Prop} (herr : ∀ s e x, I s → step s e = some (.error x) → P x) :
    ∀ (es : List ε) {s : σ} {x : χ}, I s → runSteps step s es = some (.error x) → P x
  | [], s, x, _, h => by
    rw [runSteps_nil] at h
    cases h
  | e :: es, s, x, hs, h => by
    rcases runSteps_cons_eq h with ⟨s₁, h₁, hrest⟩ | hlast
    · exact runSteps_error herr es (hstep s e s₁ hs h₁) hrest
    · exact herr s e x hs hlast

end Invariant

end Trace
