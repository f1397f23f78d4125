import Mathlib.Data.List.Nodup
import Mathlib.Logic.Function.Basic

/-!
# CellWrites — many stores into a memory of cells

Nested loops that store into a memory are one list of stores.  What a cell holds afterwards follows from
the stores to it, whatever their order, where all of them agree on its value.
-/

namespace Reasoning

variable {ι α : Type*} [DecidableEq ι] {mem : ι → α} {i : ι}

/-! ## Stores of given values -/

def writeCells (mem : ι → α) (writes : List (ι × α)) : ι → α :=
  writes.foldl (fun mem w => Function.update mem w.1 w.2) mem

theorem writeCells_cons (mem : ι → α) (w : ι × α) (writes : List (ι × α)) :
    writeCells mem (w :: writes) = writeCells (Function.update mem w.1 w.2) writes := rfl

theorem writeCells_of_ne {writes : List (ι × α)} (h : ∀ w ∈ writes, w.1 ≠ i) :
    writeCells mem writes i = mem i := by
  induction writes generalizing mem with
  | nil => rfl
  | cons w writes ih =>
    rw [writeCells_cons, ih fun w' hw' => h w' (List.mem_cons_of_mem _ hw')]
    exact Function.update_of_ne (h w List.mem_cons_self).symm ..

theorem writeCells_of_mem {writes : List (ι × α)} {v : α} (hmem : ∃ w ∈ writes, w.1 = i)
    (hsame : ∀ w ∈ writes, w.1 = i → w.2 = v) : writeCells mem writes i = v := by
  induction writes generalizing mem with
  | nil =>
    obtain ⟨w, hw, -⟩ := hmem
    cases hw
  | cons w writes ih =>
    rw [writeCells_cons]
    by_cases hlater : ∃ w' ∈ writes, w'.1 = i
    · exact ih hlater fun w' hw' => hsame w' (List.mem_cons_of_mem _ hw')
    · -- the first store is the only one to this cell
      rw [writeCells_of_ne fun w' hw' heq => hlater ⟨w', hw', heq⟩]
      obtain ⟨w', hw', heq⟩ := hmem
      rcases List.mem_cons.mp hw' with rfl | hw'
      · rw [← heq, Function.update_self]
        exact hsame _ List.mem_cons_self heq
      · exact absurd ⟨w', hw', heq⟩ hlater

/-! ## Stores of what other cells hold -/

/-- Copy the second cell of a pair to the first. -/
def moveCell (mem : ι → α) (move : ι × ι) : ι → α := Function.update mem move.1 (mem move.2)

theorem foldl_moveCell_of_notMem {moves : List (ι × ι)} (h : i ∉ moves.map Prod.fst) :
    moves.foldl moveCell mem i = mem i := by
  induction moves generalizing mem with
  | nil => rfl
  | cons move moves ih =>
    rw [List.map_cons, List.mem_cons, not_or] at h
    rw [List.foldl_cons, ih h.2]
    exact Function.update_of_ne h.1 ..

/-- Copies of which none overwrites what a later one is to read are stores of what was there at first. -/
theorem foldl_moveCell_eq_writeCells {moves : List (ι × ι)} (h : moves.Pairwise fun m m' => m.1 ≠ m'.2) :
    moves.foldl moveCell mem = writeCells mem (moves.map fun m => (m.1, mem m.2)) := by
  induction moves generalizing mem with
  | nil => rfl
  | cons move moves ih =>
    rw [List.pairwise_cons] at h
    rw [List.foldl_cons, ih h.2, List.map_cons, writeCells_cons]
    apply congrArg (writeCells (moveCell mem move))
    apply List.map_congr_left
    intro later hlater
    rw [moveCell, Function.update_of_ne (h.1 later hlater).symm]

/-- Copies to different cells, one after the other, change nothing exactly if each cell already holds
what is copied to it: the first copy that is none would be seen for ever. -/
theorem foldl_moveCell_eq_self_iff {moves : List (ι × ι)} (hnodup : (moves.map Prod.fst).Nodup) :
    moves.foldl moveCell mem = mem ↔ ∀ move ∈ moves, mem move.2 = mem move.1 := by
  induction moves generalizing mem with
  | nil => exact iff_of_true rfl nofun
  | cons move moves ih =>
    rw [List.map_cons, List.nodup_cons] at hnodup
    rw [List.foldl_cons, List.forall_mem_cons]
    by_cases hfirst : mem move.2 = mem move.1
    · have hsame : moveCell mem move = mem := by
        rw [moveCell, hfirst, Function.update_eq_self]
      rw [hsame, ih hnodup.2]
      exact (and_iff_right hfirst).symm
    · apply iff_of_false _ fun h => hfirst h.1
      intro heq
      have hcell := congrFun heq move.1
      rw [foldl_moveCell_of_notMem hnodup.1, moveCell, Function.update_self] at hcell
      exact hfirst hcell

end Reasoning
