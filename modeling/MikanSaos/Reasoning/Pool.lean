import Mathlib.Data.Set.Lattice
import Mathlib.Order.CompletePartialOrder
import Mathlib.Order.BooleanAlgebra.Set
import Mathlib.Data.List.Basic

/-!
# Pool — what an allocator promises, over any kind of resource

A pool is the set of resources in use together with the blocks handed out and not yet returned.
An allocator may hand out a block nobody uses, take resources out of circulation for good, and take
a block back.  Under these three moves the blocks stay inside the used part and never overlap.
-/

namespace Reasoning

variable {α : Type*}

structure Pool (α : Type*) where
  used : Set α
  blocks : List (Set α)

namespace Pool

/-- The blocks are in use, and no two of them share a resource. -/
structure Sound (p : Pool α) : Prop where
  used : ∀ b ∈ p.blocks, b ⊆ p.used
  disjoint : p.blocks.Pairwise Disjoint

/-- The moves of an allocator. -/
inductive Step (p : Pool α) : Pool α → Prop
  | take (b : Set α) (hfresh : Disjoint b p.used) : Step p ⟨p.used ∪ b, b :: p.blocks⟩
  | mark (s : Set α) : Step p ⟨p.used ∪ s, p.blocks⟩
  | release (before after : List (Set α)) (b : Set α) (h : p.blocks = before ++ b :: after) :
      Step p ⟨p.used \ b, before ++ after⟩

theorem Sound.step {p q : Pool α} (hp : p.Sound) (h : Step p q) : q.Sound := by
  cases h with
  | take b hfresh =>
    refine ⟨fun c hc => ?_, List.pairwise_cons.mpr ⟨fun c hc => ?_, hp.disjoint⟩⟩
    · rcases List.mem_cons.mp hc with rfl | hc
      · exact Set.subset_union_right
      · exact (hp.used c hc).trans Set.subset_union_left
    · exact hfresh.mono_right (hp.used c hc)
  | mark s =>
    exact ⟨fun c hc => (hp.used c hc).trans Set.subset_union_left, hp.disjoint⟩
  | release before after b hb =>
    have hall := hp.disjoint
    rw [hb, List.pairwise_append, List.pairwise_cons] at hall
    obtain ⟨hbefore, ⟨hhead, hafter⟩, hcross⟩ := hall
    refine ⟨fun c hc => ?_,
      List.pairwise_append.mpr ⟨hbefore, hafter, fun x hx y hy => ?_⟩⟩
    · have hkept : c ∈ p.blocks ∧ Disjoint c b := by
        rw [hb]
        rcases List.mem_append.mp hc with h | h
        · exact ⟨List.mem_append_left _ h, hcross c h b List.mem_cons_self⟩
        · exact ⟨List.mem_append_right _ (List.mem_cons_of_mem b h), (hhead c h).symm⟩
      exact Set.subset_sdiff.mpr ⟨hp.used c hkept.1, hkept.2⟩
    · exact hcross x hx y (List.mem_cons_of_mem b hy)

end Pool

end Reasoning
