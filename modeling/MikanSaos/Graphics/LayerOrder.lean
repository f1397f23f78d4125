import MikanSaos.Graphics.ActiveLayer
import Mathlib.Data.List.Perm.Basic

/-!
# LayerOrder — where `SetIndex` puts a layer

A larger index is further to the front.  `SetIndex` computes the new position before it takes the layer out of
the stack, and clamps it again afterwards.
-/

namespace MikanSaos

/-- The calls that change the stack. -/
inductive StackCall where
  | setIndex (id : Nat) (index : Int)
  | hide (id : Nat)
  | removeLayer (id : Nat)

namespace LayerSystem

/-- No layer is twice in the stack, and every one is alive. -/
structure Ordered (s : LayerSystem) : Prop where
  nodup : s.layerStack.Nodup
  live : ∀ layer ∈ s.layerStack, layer ∈ s.layers

/-- What `SetIndex(id, index)` is for, with `layer` the layer that `id` names. -/
def PlacedAt (s : LayerSystem) (layer : LayerPtr) (index : Int) (s' : LayerSystem) : Prop :=
  if 0 ≤ index then
    s'.layerStack[min index.toNat (s'.layerStack.length - 1)]? = some layer ∧
      s'.layerStack.erase layer = s.layerStack.erase layer
  else layer ∉ s'.layerStack ∧ s'.layerStack = s.layerStack.erase layer

end LayerSystem

namespace StackCall

def run (s : LayerSystem) : StackCall → Option LayerSystem
  | setIndex id index => s.setIndex id index
  | hide id => some (s.hide id)
  | removeLayer id => some (s.removeLayer id)

/-- `SetIndex` is called for a living layer. -/
def Valid (s : LayerSystem) : StackCall → Prop
  | setIndex id _ => (s.findLayer id).isSome
  | _ => True

/-- The call comes to an end, leaves an ordered stack, and puts the layer where it is asked to. -/
def Meets (s : LayerSystem) (call : StackCall) : Prop :=
  ∃ s', call.run s = some s' ∧ s'.Ordered ∧
    match call with
    | setIndex id index => ∀ layer, s.findLayer id = some layer → s.PlacedAt layer index s'
    | _ => True

/-- When a call keeps to the order: a layer of the stack does not go to the top, the layer that the source's
`Hide(index)` takes out is the one to be hidden, and of the layers with the removed id the stack has only the one that
is found. -/
def InOrder (s : LayerSystem) : StackCall → Prop
  | setIndex id index =>
    if 0 ≤ index then
      ∀ layer, s.findLayer id = some layer → layer ∈ s.layerStack → index + 1 < s.layerStack.length
    else ∀ layer ∈ s.layerStack,
      s.findLayer (index % 2 ^ 32).toNat = some layer ↔ s.findLayer id = some layer
  | hide _ => True
  | removeLayer id => ∀ layer ∈ s.layerStack, layer.id = id → s.findLayer id = some layer

end StackCall

namespace LayerSystem

variable {s s' : LayerSystem} {id : Nat} {index : Int} {layer : LayerPtr}

theorem mem_of_findLayer (h : s.findLayer id = some layer) : layer ∈ s.layers := List.mem_of_find?_eq_some h

/-! ## `Hide` and `RemoveLayer` -/

theorem Ordered.hide (h : s.Ordered) (id : Nat) : (s.hide id).Ordered := by
  unfold LayerSystem.hide
  cases s.findLayer id with
  | none => exact h
  | some layer => exact ⟨h.nodup.erase layer, fun l hl => h.live l (List.mem_of_mem_erase hl)⟩

/-- `Hide` takes out the layer that the id names, if there is one. -/
theorem mem_hide (h : s.Ordered) (id : Nat) {l : LayerPtr} :
    l ∈ (s.hide id).layerStack ↔ l ∈ s.layerStack ∧ s.findLayer id ≠ some l := by
  unfold LayerSystem.hide
  cases s.findLayer id with
  | none => simp
  | some layer =>
    show l ∈ s.layerStack.erase layer ↔ _
    rw [h.nodup.mem_erase_iff, and_comm]
    exact and_congr_right fun _ => not_congr (eq_comm.trans Option.some_inj.symm)

theorem ordered_removeLayer_iff (h : s.Ordered) : (s.removeLayer id).Ordered ↔
    ∀ layer ∈ s.layerStack, layer.id = id → s.findLayer id = some layer := by
  have hlayers : (s.hide id).layers = s.layers := by
    unfold LayerSystem.hide
    cases s.findLayer id <;> rfl
  constructor
  · -- a second layer of this id is dropped from the layers, but stays in the stack
    intro hordered layer hlayer hid
    by_contra hother
    have hlive := hordered.live layer ((mem_hide h id).mpr ⟨hlayer, hother⟩)
    simp [removeLayer, hid] at hlive
  · intro hfound
    refine ⟨(h.hide id).nodup, fun layer hlayer => ?_⟩
    have hstack := (mem_hide h id).mp hlayer
    show layer ∈ (s.hide id).layers.filter _
    rw [hlayers, List.mem_filter]
    refine ⟨h.live layer hstack.1, decide_eq_true fun hid => ?_⟩
    exact hstack.2 (hfound layer hstack.1 hid)

/-! ## `SetIndex` -/

section

variable {stack : List LayerPtr} {i : Nat}

/-- A layer put into a stack without it. -/
theorem ordered_insertIdx (h : s.Ordered) (hlive : layer ∈ s.layers) (hsub : stack ⊆ s.layerStack)
    (hnodup : stack.Nodup) (hout : layer ∉ stack) (hi : i ≤ stack.length) :
    Ordered { s with layerStack := stack.insertIdx i layer } := by
  have hperm := List.perm_insertIdx layer stack hi
  refine ⟨hperm.nodup_iff.mpr (List.nodup_cons.mpr ⟨hout, hnodup⟩), fun l hl => ?_⟩
  rcases List.mem_cons.mp (hperm.mem_iff.mp hl) with rfl | hl
  · exact hlive
  · exact h.live l (hsub hl)

theorem erase_insertIdx (hout : layer ∉ stack) (hi : i ≤ stack.length) :
    (stack.insertIdx i layer).erase layer = stack := by
  induction stack generalizing i with
  | nil =>
    obtain rfl : i = 0 := by simpa using hi
    simp
  | cons l stack ih =>
    cases i with
    | zero => simp
    | succ i =>
      have hne : l ≠ layer := fun heq => hout (heq ▸ List.mem_cons_self)
      rw [List.insertIdx_succ_cons, List.erase_cons_tail (by simpa using hne),
        ih (fun hl => hout (List.mem_cons_of_mem _ hl)) (Nat.le_of_succ_le_succ hi)]

/-- The layer is where it has been put, and nowhere else. -/
theorem getElem?_insertIdx_iff (hout : layer ∉ stack) (hi : i ≤ stack.length) {j : Nat} :
    (stack.insertIdx i layer)[j]? = some layer ↔ j = i := by
  have hnone : ∀ k, stack[k]? ≠ some layer := fun k hk => hout (List.mem_of_getElem? hk)
  rw [List.getElem?_insertIdx]
  split
  · exact iff_of_false (hnone j) (by omega)
  · split
    · rename_i heq
      simp [heq, hi]
    · rename_i hne
      exact iff_of_false (hnone (j - 1)) hne

end

theorem setIndex_neg (hneg : index < 0) : s.setIndex id index = some (s.hide (index % 2 ^ 32).toNat) := if_pos hneg

/-- A layer that is not in the stack comes in at the index, or on top. -/
theorem setIndex_enter (hindex : 0 ≤ index) (hlayer : s.findLayer id = some layer) (hout : layer ∉ s.layerStack) :
    s.setIndex id index =
      some { s with layerStack := s.layerStack.insertIdx (min index.toNat s.layerStack.length) layer } := by
  rw [setIndex, if_neg (by omega), hlayer]
  exact if_neg hout

/-- A layer of the stack never comes out on top: the end of the shortened stack is clamped once more. -/
theorem setIndex_move (hindex : 0 ≤ index) (hlayer : s.findLayer id = some layer) (hin : layer ∈ s.layerStack)
    (hlength : 2 ≤ s.layerStack.length) :
    s.setIndex id index = some { s with layerStack :=
      (s.layerStack.erase layer).insertIdx (min index.toNat (s.layerStack.length - 2)) layer } := by
  have hrest : (s.layerStack.erase layer).length = s.layerStack.length - 1 := List.length_erase_of_mem hin
  rw [setIndex, if_neg (by omega), hlayer]
  dsimp only
  rw [if_pos hin, if_neg (by omega), hrest]
  -- `new_pos` at or behind the new end becomes `end() - 1`
  congr 3
  split <;> omega

theorem setIndex_single (hindex : 0 ≤ index) (hlayer : s.findLayer id = some layer) (hin : layer ∈ s.layerStack)
    (hlength : s.layerStack.length < 2) : s.setIndex id index = none := by
  have hrest : (s.layerStack.erase layer).length = s.layerStack.length - 1 := List.length_erase_of_mem hin
  rw [setIndex, if_neg (by omega), hlayer]
  dsimp only
  rw [if_pos hin, if_pos (by omega)]

/-- What is left of a stack by `Hide`, against what is to be left. -/
theorem hide_eq_erase_iff (h : s.Ordered) (hlayer : s.findLayer id = some layer) (id' : Nat) :
    (s.hide id').layerStack = s.layerStack.erase layer ↔
      ∀ l ∈ s.layerStack, s.findLayer id' = some l ↔ s.findLayer id = some l := by
  have hmem : ∀ l, l ∈ s.layerStack.erase layer ↔ l ∈ s.layerStack ∧ s.findLayer id ≠ some l := by
    intro l
    rw [h.nodup.mem_erase_iff, hlayer, and_comm]
    exact and_congr_right fun _ => not_congr (eq_comm.trans Option.some_inj.symm)
  constructor
  · intro heq l hl
    have hsame : l ∈ (s.hide id').layerStack ↔ l ∈ s.layerStack.erase layer := by rw [heq]
    rw [mem_hide h, hmem] at hsame
    tauto
  · intro hsame
    unfold LayerSystem.hide
    cases hfound : s.findLayer id' with
    | none =>
      -- nothing is hidden, and nothing was to be
      have hout : layer ∉ s.layerStack := fun hin => by
        have hsome := (hsame layer hin).mpr hlayer
        rw [hfound] at hsome
        cases hsome
      exact (List.erase_of_not_mem hout).symm
    | some other =>
      show s.layerStack.erase other = s.layerStack.erase layer
      by_cases hin : other ∈ s.layerStack
      · have hother := (hsame other hin).mp hfound
        rw [hlayer] at hother
        rw [Option.some.inj hother]
      · have hout : layer ∉ s.layerStack := fun hin' => by
          have hsome := (hsame layer hin').mpr hlayer
          rw [hfound] at hsome
          exact hin (Option.some.inj hsome ▸ hin')
        rw [List.erase_of_not_mem hin, List.erase_of_not_mem hout]

end LayerSystem

namespace StackCall

open LayerSystem

variable {s : LayerSystem} {id : Nat} {index : Int} {layer : LayerPtr}

theorem meets_setIndex_iff {s' : LayerSystem} (hlayer : s.findLayer id = some layer)
    (hrun : s.setIndex id index = some s') :
    (setIndex id index).Meets s ↔ s'.Ordered ∧ s.PlacedAt layer index s' := by
  have hall : (∀ l, s.findLayer id = some l → s.PlacedAt l index s') ↔ s.PlacedAt layer index s' := by
    simp [hlayer]
  constructor
  · rintro ⟨t, hrun', hordered, hplaced⟩
    rw [show StackCall.run s (setIndex id index) = some s' from hrun] at hrun'
    obtain rfl := Option.some.inj hrun'
    exact ⟨hordered, hall.mp hplaced⟩
  · rintro ⟨hordered, hplaced⟩
    exact ⟨s', hrun, hordered, hall.mpr hplaced⟩

theorem meets_setIndex_neg_iff (h : s.Ordered) (hlayer : s.findLayer id = some layer) (hneg : index < 0) :
    (setIndex id index).Meets s ↔ (setIndex id index).InOrder s := by
  rw [meets_setIndex_iff hlayer (setIndex_neg hneg), and_iff_right (h.hide _), PlacedAt, if_neg (by omega), InOrder,
    if_neg (by omega), ← hide_eq_erase_iff h hlayer]
  constructor
  · exact fun hplaced => hplaced.2
  · intro heq
    rw [heq]
    exact ⟨h.nodup.not_mem_erase, rfl⟩

theorem meets_setIndex_nonneg_iff (h : s.Ordered) (hlayer : s.findLayer id = some layer) (hindex : 0 ≤ index) :
    (setIndex id index).Meets s ↔ (setIndex id index).InOrder s := by
  have hcondition : (setIndex id index).InOrder s ↔
      (layer ∈ s.layerStack → index + 1 < s.layerStack.length) := by
    rw [InOrder, if_pos hindex]
    simp [hlayer]
  have hlive := mem_of_findLayer hlayer
  rw [hcondition]
  by_cases hin : layer ∈ s.layerStack
  · have hrest : (s.layerStack.erase layer).length = s.layerStack.length - 1 := List.length_erase_of_mem hin
    have hout : layer ∉ s.layerStack.erase layer := h.nodup.not_mem_erase
    by_cases hlength : 2 ≤ s.layerStack.length
    · have hpos : min index.toNat (s.layerStack.length - 2) ≤ (s.layerStack.erase layer).length := by omega
      rw [meets_setIndex_iff hlayer (setIndex_move hindex hlayer hin hlength),
        and_iff_right (ordered_insertIdx h hlive List.erase_subset (h.nodup.erase layer) hout hpos), PlacedAt,
        if_pos hindex]
      dsimp only
      -- the place asked for is the place taken exactly if it is not the last one
      rw [getElem?_insertIdx_iff hout hpos, erase_insertIdx hout hpos, List.length_insertIdx_of_le_length hpos,
        hrest]
      simp only [and_true, hin, true_implies]
      omega
    · -- there is nothing below the layer
      apply iff_of_false
      · rintro ⟨s', hrun, -⟩
        rw [StackCall.run, setIndex_single hindex hlayer hin (by omega)] at hrun
        cases hrun
      · intro hlt
        have := hlt hin
        omega
  · have hpos : min index.toNat s.layerStack.length ≤ s.layerStack.length := by omega
    rw [meets_setIndex_iff hlayer (setIndex_enter hindex hlayer hin),
      and_iff_right (ordered_insertIdx h hlive (List.Subset.refl _) h.nodup hin hpos), PlacedAt, if_pos hindex]
    dsimp only
    rw [getElem?_insertIdx_iff hin hpos, erase_insertIdx hin hpos, List.length_insertIdx_of_le_length hpos,
      List.erase_of_not_mem hin]
    simp only [and_true, hin, false_implies, iff_true]
    omega

end StackCall

/-- **Where `SetIndex` puts a layer.**  On every ordered stack, a call does what it is for exactly when it is in
order: `SetIndex` with a layer of the stack that is to stay below the top, or with one that is not in the stack;
with a negative index that hides the right layer; and `RemoveLayer` of an id that one layer of the stack has. -/
theorem stackCall_meets_iff {s : LayerSystem} (h : s.Ordered) {call : StackCall} (hvalid : call.Valid s) :
    call.Meets s ↔ call.InOrder s := by
  cases call with
  | setIndex id index =>
    obtain ⟨layer, hlayer⟩ := Option.isSome_iff_exists.mp hvalid
    by_cases hindex : 0 ≤ index
    · exact StackCall.meets_setIndex_nonneg_iff h hlayer hindex
    · exact StackCall.meets_setIndex_neg_iff h hlayer (by omega)
  | hide id => exact iff_of_true ⟨_, rfl, h.hide id, trivial⟩ trivial
  | removeLayer id =>
    rw [StackCall.InOrder, ← LayerSystem.ordered_removeLayer_iff h]
    constructor
    · rintro ⟨s', hrun, hordered, -⟩
      obtain rfl := Option.some.inj hrun
      exact hordered
    · exact fun hordered => ⟨_, rfl, hordered, trivial⟩

/-- Three layers, with the ids 1 to 3 from below. -/
def threeLayers : LayerSystem where
  layers := [⟨0, 1⟩, ⟨1, 2⟩, ⟨2, 3⟩]
  layerStack := [⟨0, 1⟩, ⟨1, 2⟩, ⟨2, 3⟩]
  lastId := 3
  made := 3
  activeLayer := 0
  mouseLayer := 3
  activated := fun _ => false

theorem threeLayers_ordered : threeLayers.Ordered := ⟨by decide, by decide⟩

theorem stackCall_meets_middle : (StackCall.setIndex 1 1).Meets threeLayers :=
  (@stackCall_meets_iff threeLayers threeLayers_ordered (.setIndex 1 1) rfl).mpr (by
    intro layer hlayer _
    show (1 : Int) + 1 < 3
    decide)

/-- Asked to the top, the lowest layer stops below it; asked out of the stack, it stays; and alone in the stack
it is put in front of the first place. -/
theorem setIndex_misplaces :
    ((threeLayers.setIndex 1 2).map fun s => s.layerStack.map LayerPtr.id) = some [2, 1, 3] ∧
    ((threeLayers.setIndex 1 (-1)).map fun s => s.layerStack.map LayerPtr.id) = some [1, 2, 3] ∧
    (({ threeLayers with layerStack := [⟨0, 1⟩] } : LayerSystem).setIndex 1 0).isNone ∧
    ¬ (StackCall.setIndex 1 2).Meets threeLayers := by
  refine ⟨by decide, by decide, by decide, ?_⟩
  rintro ⟨s', hrun, -, hplaced⟩
  have hstack : (threeLayers.setIndex 1 2).map (fun s => s.layerStack[2]?) = some (some ⟨2, 3⟩) := by decide
  have hthree : (threeLayers.setIndex 1 2).map (fun s => s.layerStack.length) = some 3 := by decide
  rw [show StackCall.run threeLayers (.setIndex 1 2) = threeLayers.setIndex 1 2 from rfl] at hrun
  rw [hrun] at hstack hthree
  have hlength : s'.layerStack.length = 3 := Option.some.inj hthree
  have hpos := (hplaced ⟨0, 1⟩ rfl).1
  rw [hlength] at hpos
  exact absurd ((Option.some.inj hstack).symm.trans hpos) (by decide)

end MikanSaos
