import Mathlib.Data.List.Infix

/-!
# Paths through a table of links

A node has a link for every label, or none.  `follow` goes along the labels of a path; what it finds
depends only on the links on the way.
-/

namespace Reasoning.Paths

variable {α ι : Type*} {next next' : α → ι → Option α} {a b : α} {p q : List ι} {i : ι}

/-- The node at the end of a path, if all links on the way are there. -/
def follow (next : α → ι → Option α) (a : α) : List ι → Option α
  | [] => some a
  | i :: p => (next a i).bind fun b => follow next b p

@[simp] theorem follow_nil (next : α → ι → Option α) (a : α) : follow next a [] = some a := rfl

theorem follow_append (next : α → ι → Option α) (a : α) (p q : List ι) :
    follow next a (p ++ q) = (follow next a p).bind fun b => follow next b q := by
  induction p generalizing a with
  | nil => rfl
  | cons i p ih =>
    rw [List.cons_append, follow, follow]
    cases next a i with
    | none => rfl
    | some b => exact ih b

theorem follow_snoc (next : α → ι → Option α) (a : α) (p : List ι) (i : ι) :
    follow next a (p ++ [i]) = (follow next a p).bind fun b => next b i := by
  rw [follow_append]
  cases follow next a p with
  | none => rfl
  | some b => exact Option.bind_fun_some (next b i)

theorem follow_append_none (h : follow next a p = none) (q : List ι) :
    follow next a (p ++ q) = none := by
  rw [follow_append, h]
  rfl

/-- Only the links on the way matter. -/
theorem follow_congr (h : ∀ p' i b, p' ++ [i] <+: p → follow next a p' = some b →
    next' b i = next b i) : follow next' a p = follow next a p := by
  induction p using List.reverseRecOn with
  | nil => rfl
  | append_singleton p i ih =>
    have hinit := ih fun p' j b hp hb => h p' j b (hp.trans (List.prefix_append p [i])) hb
    rw [follow_snoc, follow_snoc, hinit]
    cases hb : follow next a p with
    | none => rfl
    | some b => exact h p i b (List.prefix_refl _) hb

end Reasoning.Paths
