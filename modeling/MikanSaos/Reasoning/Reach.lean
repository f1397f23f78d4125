import Mathlib.Data.List.Induction
import Mathlib.Logic.Relation

/-!
# Reach — states reached by a step relation, and the invariant rule

A program that serves requests for ever is described here by a predicate on its first states and a
relation between a state and the next one.  Every safety statement about its runs is then a step
lemma, lifted by `Reachable.invariant`.
-/

namespace Reasoning

variable {σ : Type*} {init : σ → Prop} {step : σ → σ → Prop} {s t : σ}

/-- The states that finitely many steps reach from a first state. -/
inductive Reachable (init : σ → Prop) (step : σ → σ → Prop) : σ → Prop
  | start {s : σ} (h : init s) : Reachable init step s
  | next {s t : σ} (hs : Reachable init step s) (h : step s t) : Reachable init step t

/-- What holds at the start and survives every step holds in every reachable state. -/
theorem Reachable.invariant {inv : σ → Prop} (hinit : ∀ s, init s → inv s)
    (hstep : ∀ s t, inv s → step s t → inv t) (h : Reachable init step s) : inv s := by
  induction h with
  | start h0 => exact hinit _ h0
  | next _ hst ih => exact hstep _ _ ih hst

/-- Fewer first states and fewer steps reach fewer states. -/
theorem Reachable.mono {init' : σ → Prop} {step' : σ → σ → Prop}
    (hi : ∀ s, init s → init' s) (hs : ∀ s t, step s t → step' s t)
    (h : Reachable init step s) : Reachable init' step' s := by
  induction h with
  | start h0 => exact .start (hi _ h0)
  | next _ hst ih => exact .next ih (hs _ _ hst)

/-- The steps of a labelled relation whose event `guard` does not exclude. -/
def GuardedStep {ε : Type*} (step : σ → ε → σ → Prop) (guard : σ → ε → Prop) (s t : σ) : Prop :=
  ∃ event, guard s event ∧ step s event t

/-- Calls in a row: what one call keeps exactly on a condition holds after each of them exactly when all of them
meet the condition. -/
theorem forall_prefix_iff {ι : Type*} {run : σ → ι → σ} {good : σ → Prop} {allowed : σ → ι → Prop} {calls : List ι}
    (hs : good s) (hcall : ∀ s call, good s → (good (run s call) ↔ allowed s call)) :
    (∀ pre, pre <+: calls → good (pre.foldl run s)) ↔
      ∀ pre call, pre ++ [call] <+: calls → allowed (pre.foldl run s) call := by
  constructor
  · intro h pre call hpre
    have hbefore := h pre ((List.prefix_append pre [call]).trans hpre)
    have hafter := h (pre ++ [call]) hpre
    rw [List.foldl_append] at hafter
    exact (hcall _ call hbefore).mp hafter
  · intro h pre
    induction pre using List.reverseRecOn with
    | nil => exact fun _ => hs
    | append_singleton pre call ih =>
      intro hpre
      have hbefore := ih ((List.prefix_append pre [call]).trans hpre)
      rw [List.foldl_append]
      exact (hcall _ call hbefore).mpr (h pre call hpre)

end Reasoning
