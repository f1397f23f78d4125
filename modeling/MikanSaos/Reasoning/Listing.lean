import MikanSaos.Reasoning.Reach
import Mathlib.Algebra.BigOperators.Group.List.Basic
import Mathlib.Algebra.Order.Ring.Nat
import Mathlib.Data.List.Nodup

/-!
# Listing — what a depth-first walk lists

A walk over a forest lists every root, with everything below it, before the next one.  Nodes are given by their
children only, so the walk does not know whether it goes in circles: that it ends is what there is a listing for.
-/

namespace Reasoning

variable {α : Type*} {children : α → List α} {roots roots' nodes nodes' : List α} {x : α}

/-- The walk from the roots lists the nodes. -/
inductive Listing (children : α → List α) : List α → List α → Prop
  | nil : Listing children [] []
  | node {x : α} {roots below rest : List α} (hbelow : Listing children (children x) below)
      (hrest : Listing children roots rest) : Listing children (x :: roots) (x :: (below ++ rest))

/-- A node is below the roots. -/
abbrev Below (children : α → List α) (roots : List α) : α → Prop :=
  Reachable (· ∈ roots) fun parent x => x ∈ children parent

namespace Listing

theorem append (h : Listing children roots nodes) (h' : Listing children roots' nodes') :
    Listing children (roots ++ roots') (nodes ++ nodes') := by
  induction h with
  | nil => exact h'
  | node hbelow hrest _ ih =>
    have hnode := Listing.node hbelow ih
    rwa [← List.append_assoc] at hnode

/-- A node is listed as a root, and once more with each listed node that it is a child of. -/
theorem count_eq [DecidableEq α] (h : Listing children roots nodes) :
    nodes.count x = roots.count x + (nodes.map fun y => (children y).count x).sum := by
  induction h with
  | nil => rfl
  | node hbelow hrest ihbelow ihrest =>
    simp only [List.count_cons, List.count_append, List.map_cons, List.map_append, List.sum_cons, List.sum_append]
    omega

/-- Nothing is listed that is not below the roots. -/
theorem reached (h : Listing children roots nodes) (hx : x ∈ nodes) : Below children roots x := by
  induction h generalizing x with
  | nil => cases hx
  | @node root roots below rest hbelow hrest ihbelow ihrest =>
    rcases List.mem_cons.mp hx with rfl | hx
    · exact .start List.mem_cons_self
    rcases List.mem_append.mp hx with hx | hx
    · exact (ihbelow hx).invariant
        (fun y hy => .next (.start List.mem_cons_self) hy) fun y z hy hz => .next hy hz
    · exact (ihrest hx).mono (fun y hy => List.mem_cons_of_mem _ hy) fun y z hz => hz

theorem mem_of_root (h : Listing children roots nodes) (hx : x ∈ roots) : x ∈ nodes := by
  induction h with
  | nil => cases hx
  | node hbelow hrest ihbelow ihrest =>
    rcases List.mem_cons.mp hx with rfl | hx
    · exact List.mem_cons_self
    · exact List.mem_cons_of_mem _ (List.mem_append_right _ (ihrest hx))

theorem mem_of_child {parent : α} (h : Listing children roots nodes) (hparent : parent ∈ nodes)
    (hx : x ∈ children parent) : x ∈ nodes := by
  induction h with
  | nil => cases hparent
  | node hbelow hrest ihbelow ihrest =>
    apply List.mem_cons_of_mem
    rcases List.mem_cons.mp hparent with rfl | hparent
    · exact List.mem_append_left _ (hbelow.mem_of_root hx)
    rcases List.mem_append.mp hparent with hparent | hparent
    · exact List.mem_append_left _ (ihbelow hparent)
    · exact List.mem_append_right _ (ihrest hparent)

/-- The walk lists exactly what is below its roots. -/
theorem mem_iff (h : Listing children roots nodes) : x ∈ nodes ↔ Below children roots x :=
  ⟨h.reached, fun hx => hx.invariant (fun _ hy => h.mem_of_root hy) fun _ _ hy hz => h.mem_of_child hy hz⟩

/-- A child of one node only is counted as often as that node. -/
theorem sum_count_le [DecidableEq α] {parent : α} (hone : (children parent).count x ≤ 1)
    (hparent : ∀ y ∈ nodes, x ∈ children y → y = parent) :
    (nodes.map fun y => (children y).count x).sum ≤ nodes.count parent := by
  induction nodes with
  | nil => exact Nat.le_refl 0
  | cons y rest ih =>
    rw [List.map_cons, List.sum_cons, List.count_cons]
    have hrest := ih fun z hz => hparent z (List.mem_cons_of_mem _ hz)
    by_cases hy : y = parent
    · simp only [hy, beq_self_eq_true, if_true]
      omega
    · have hnone : (children y).count x = 0 :=
        List.count_eq_zero.mpr fun hmem => hy (hparent y List.mem_cons_self hmem)
      omega

/-- In a forest nothing is listed twice.  The induction is on how a node is reached: it is listed as often as its
parent. -/
theorem nodup (h : Listing children roots nodes) (hroots : roots.Nodup)
    (hchildren : ∀ y ∈ nodes, (children y).Nodup)
    (hroot : ∀ y ∈ nodes, ∀ x ∈ children y, x ∉ roots)
    (hparent : ∀ y ∈ nodes, ∀ z ∈ nodes, ∀ x ∈ children y, x ∈ children z → z = y) : nodes.Nodup := by
  classical
  rw [List.nodup_iff_count_le_one]
  intro x
  by_cases hx : x ∈ nodes
  · have hcount := h.count_eq (x := x)
    induction h.reached hx with
    | @start x hstart =>
      have hnone : (nodes.map fun y => (children y).count x).sum = 0 := by
        apply List.sum_eq_zero
        rw [List.forall_mem_map]
        intro y hy
        exact List.count_eq_zero.mpr fun hmem => hroot y hy x hmem hstart
      have hroots := List.nodup_iff_count_le_one.mp hroots x
      omega
    | @next parent x hreach hchild ih =>
      have hparent_mem := h.mem_iff.mpr hreach
      have hnone : roots.count x = 0 := List.count_eq_zero.mpr (hroot parent hparent_mem x hchild)
      have hsame : (nodes.map fun y => (children y).count x).sum ≤ nodes.count parent :=
        sum_count_le (List.nodup_iff_count_le_one.mp (hchildren parent hparent_mem) x)
          fun y hy hmem => hparent parent hparent_mem y hy x hchild hmem
      have hle := ih hparent_mem h.count_eq
      omega
  · rw [List.count_eq_zero_of_not_mem hx]
    exact Nat.zero_le 1

end Listing

end Reasoning
