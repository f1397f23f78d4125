import Mathlib.Init

/-!
# Simulation — two levels of one design

A system is a relation between a state, an event and a next state.  The code simulates its abstract description when
each of its steps is one of the description with the same event; then each run of the code is a run of the description.
-/

namespace Reasoning

variable {σ τ ε : Type*} {step : σ → ε → σ → Prop} {step' : τ → ε → τ → Prop} {rel : σ → τ → Prop} {s t u : σ} {a : τ}
  {e : ε} {es es' : List ε}

/-- The states that a list of events leads to. -/
inductive Run (step : σ → ε → σ → Prop) : σ → List ε → σ → Prop
  | nil (s : σ) : Run step s [] s
  | cons {s t u : σ} {e : ε} {es : List ε} (h : step s e t) (hrest : Run step t es u) : Run step s (e :: es) u

theorem Run.append (h : Run step s es t) (h' : Run step t es' u) : Run step s (es ++ es') u := by
  induction h with
  | nil => exact h'
  | cons hstep _ ih => exact .cons hstep (ih h')

/-- What every step keeps is kept by a run. -/
theorem Run.invariant (inv : σ → Prop) (hstep : ∀ s e t, inv s → step s e t → inv t) (h : Run step s es t)
    (hs : inv s) : inv t := by
  induction h with
  | nil => exact hs
  | cons h _ ih => exact ih (hstep _ _ _ hs h)

def Simulates (rel : σ → τ → Prop) (step : σ → ε → σ → Prop) (step' : τ → ε → τ → Prop) : Prop :=
  ∀ s a e t, rel s a → step s e t → ∃ b, step' a e b ∧ rel t b

theorem Simulates.run (hsim : Simulates rel step step') (h : Run step s es t) (hrel : rel s a) :
    ∃ b, Run step' a es b ∧ rel t b := by
  induction h generalizing a with
  | nil => exact ⟨a, .nil a, hrel⟩
  | cons hstep _ ih =>
    obtain ⟨b, hstep', hb⟩ := hsim _ _ _ _ hrel hstep
    obtain ⟨c, hrun, hc⟩ := ih hb
    exact ⟨c, .cons hstep' hrun, hc⟩

end Reasoning
