import Mathlib.Data.List.MinMax
import Mathlib.Data.Multiset.AddSub
import Mathlib.Data.Multiset.Filter

/-!
# PriorityQueue — a queue that hands out a greatest element

The laws leave open which of several greatest elements comes first, so that a result about every
`PriorityQueue` holds of every heap, whatever it does with ties.
-/

namespace Reasoning

/-- A priority queue over the order `less`. -/
structure PriorityQueue (α : Type) (less : α → α → Prop) where
  Carrier : Type
  elems : Carrier → Multiset α
  empty : Carrier
  push : Carrier → α → Carrier
  top : Carrier → Option α
  pop : Carrier → Carrier
  elems_empty : elems empty = 0
  elems_push : ∀ q a, elems (push q a) = a ::ₘ elems q
  top_eq_none : ∀ q, top q = none → elems q = 0
  top_greatest : ∀ q a, top q = some a → ∀ b ∈ elems q, ¬ less a b
  elems_pop : ∀ q a, top q = some a → elems q = a ::ₘ elems (pop q)

namespace PriorityQueue

variable {α : Type} {less : α → α → Prop} (Q : PriorityQueue α less) {q : Q.Carrier} {a : α}

theorem exists_top (h : a ∈ Q.elems q) : ∃ b, Q.top q = some b := by
  cases htop : Q.top q with
  | some b => exact ⟨b, rfl⟩
  | none =>
    rw [Q.top_eq_none q htop] at h
    exact absurd h (Multiset.notMem_zero a)

end PriorityQueue

/-- The queue that looks through a list for an element with the least key. -/
def listQueue {α : Type} [DecidableEq α] (key : α → Nat) :
    PriorityQueue α fun a b => key b < key a where
  Carrier := List α
  elems := fun q => q
  empty := []
  push := fun q a => a :: q
  top := fun q => q.argmin key
  pop := fun q => match q.argmin key with
    | none => q
    | some a => q.erase a
  elems_empty := rfl
  elems_push := fun _ _ => rfl
  top_eq_none := fun q h => by rw [List.argmin_eq_none.mp h]; rfl
  top_greatest := fun q a h b hb => Nat.not_lt.mpr (List.le_of_mem_argmin hb h)
  elems_pop := fun q a h => by
    rw [h]
    exact Multiset.coe_eq_coe.mpr (List.perm_cons_erase (List.argmin_mem h))

end Reasoning
