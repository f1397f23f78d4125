import MikanSaos.Error
import MikanSaos.Reasoning.Reach
import Mathlib.Algebra.Order.Ring.Nat
import Mathlib.Data.List.InsertIdx
import Mathlib.Data.List.Nodup
import Mathlib.Logic.Function.Basic

/-!
# ActiveLayer — which layer has the focus, and the order of the stack

Here a `Layer*` is kept apart from the id, because ids are 32-bit and come again.  Drawing, which changes neither,
and the messages to the tasks of the windows are left out.  An operation is `none` where the code would use a
null pointer or step before the beginning of a vector.
-/

open Reasoning

namespace MikanSaos

/-- A `Layer*`: the id of the layer, and the number of layers made before it. -/
structure LayerPtr where
  number : Nat
  id : Nat
  deriving DecidableEq, Repr

/-- `LayerManager` and `ActiveLayer`, with the windows, by the numbers of their layers, whose last call was
`Activate()`. -/
structure LayerSystem where
  layers : List LayerPtr
  layerStack : List LayerPtr
  lastId : Nat
  made : Nat
  activeLayer : Nat
  mouseLayer : Nat
  activated : Nat → Bool

namespace LayerSystem

def findLayer (s : LayerSystem) (id : Nat) : Option LayerPtr := s.layers.find? (·.id = id)

def getIndex (s : LayerSystem) (id : Nat) : Int :=
  match s.layerStack.findIdx? (·.id = id) with
  | some i => i
  | none => -1

def newLayer (s : LayerSystem) : LayerSystem :=
  let id := (s.lastId + 1) % 2 ^ 32
  { s with layers := s.layers ++ [⟨s.made, id⟩], lastId := id, made := s.made + 1 }

def hide (s : LayerSystem) (id : Nat) : LayerSystem :=
  match s.findLayer id with
  | none => s
  | some layer => { s with layerStack := s.layerStack.erase layer }

def removeLayer (s : LayerSystem) (id : Nat) : LayerSystem :=
  let s := s.hide id
  { s with layers := s.layers.filter (·.id ≠ id) }

def setIndex (s : LayerSystem) (id : Nat) (index : Int) : Option LayerSystem :=
  -- the source hides the layer with the id `index`
  if index < 0 then some (s.hide (index % 2 ^ 32).toNat)
  else
    let index := min index.toNat s.layerStack.length
    match s.findLayer id with
    | none => none
    | some layer =>
      if layer ∈ s.layerStack then
        let rest := s.layerStack.erase layer
        if rest.length = 0 then none
        else
          let newPos := if index ≥ rest.length then rest.length - 1 else index
          some { s with layerStack := rest.insertIdx newPos layer }
      else some { s with layerStack := s.layerStack.insertIdx index layer }

/-- `GetWindow()->Activate()` or `Deactivate()` -/
def setActivated (s : LayerSystem) (layer : LayerPtr) (activated : Bool) : LayerSystem :=
  { s with activated := Function.update s.activated layer.number activated }

/-- The first part of `Activate`: the active layer is so no longer. -/
def deactivate (s : LayerSystem) : Option LayerSystem :=
  if s.activeLayer > 0 then (s.findLayer s.activeLayer).map fun layer => s.setActivated layer false
  else some s

/-- `ActiveLayer::Activate` -/
def activate (s : LayerSystem) (layerId : Nat) : Option LayerSystem :=
  if s.activeLayer = layerId then some s
  else
    s.deactivate.bind fun s =>
      let s := { s with activeLayer := layerId }
      if layerId > 0 then
        (s.findLayer layerId).bind fun layer =>
          ((s.setActivated layer true).setIndex layerId 0).bind fun s =>
            s.setIndex layerId (s.getIndex s.mouseLayer - 1)
      else some s

def closeLayer (s : LayerSystem) (layerId : Nat) : Option (Error × LayerSystem) :=
  match s.findLayer layerId with
  | none => some (.kNoSuchEntry, s)
  | some _ => (s.activate 0).map fun s => (.kSuccess, s.removeLayer layerId)

end LayerSystem

inductive LayerEvent where
  | newLayer
  | activate (id : Nat)
  | closeLayer (id : Nat)

/-- What `Activate` is called with: no layer, or a living one that is not the mouse's. -/
def LayerSystem.Activatable (s : LayerSystem) (id : Nat) : Prop :=
  id = 0 ∨ (s.findLayer id).isSome ∧ id ≠ s.mouseLayer

inductive LayerStep (s : LayerSystem) : LayerEvent → LayerSystem → Prop
  | newLayer : LayerStep s .newLayer s.newLayer
  | activate (id : Nat) (s' : LayerSystem) (hid : s.Activatable id) (hrun : s.activate id = some s') :
      LayerStep s (.activate id) s'
  | closeLayer (id : Nat) (err : Error) (s' : LayerSystem) (hid : id ≠ s.mouseLayer)
      (hrun : s.closeLayer id = some (err, s')) : LayerStep s (.closeLayer id) s'

namespace LayerSystem

variable {s s' : LayerSystem} {id : Nat} {layer : LayerPtr}

/-- The stack holds layers that their ids name, each once, and the mouse layer on top. -/
structure Stacked (s : LayerSystem) : Prop where
  placed : ∀ layer ∈ s.layerStack, s.findLayer layer.id = some layer
  nodup : s.layerStack.Nodup
  top : ∃ below mouse, s.layerStack = below ++ [mouse] ∧ mouse.id = s.mouseLayer

/-- Before the first `Activate`. -/
structure Start (s : LayerSystem) : Prop extends Stacked s where
  none_active : s.activeLayer = 0
  none_activated : ∀ w, s.activated w = false

/-- The layer `w` of which is active. -/
def IsActive (s : LayerSystem) (w : Nat) : Prop :=
  s.activeLayer ≠ 0 ∧ ∃ layer, s.findLayer s.activeLayer = some layer ∧ layer.number = w

structure Inv (s : LayerSystem) : Prop extends Stacked s where
  live : s.activeLayer ≠ 0 → ∃ layer, s.findLayer s.activeLayer = some layer
  activated : ∀ w, s.activated w = true ↔ s.IsActive w

theorem findLayer_id (h : s.findLayer id = some layer) : layer.id = id := by
  simpa using List.find?_some h

/-- `erase` of a layer from below the top. -/
theorem Stacked.erase_below (h : s.Stacked) (hlayer : s.findLayer id = some layer) (hid : id ≠ s.mouseLayer) :
    ∃ below mouse, s.layerStack.erase layer = below ++ [mouse] ∧ mouse.id = s.mouseLayer ∧ mouse ≠ layer ∧
      layer ∉ below := by
  obtain ⟨below, mouse, hstack, hmouse⟩ := h.top
  have hne : mouse ≠ layer := by
    rintro rfl
    exact hid ((findLayer_id hlayer).symm.trans hmouse)
  have hnodup := h.nodup
  rw [hstack] at hnodup
  refine ⟨below.erase layer, mouse, ?_, hmouse, hne, ?_⟩
  · rw [hstack]
    by_cases hin : layer ∈ below
    · exact List.erase_append_left _ hin
    · rw [List.erase_append_right _ hin, List.erase_of_not_mem hin, List.erase_of_not_mem (by simpa using hne.symm)]
  · exact (List.nodup_append.mp hnodup).1.not_mem_erase

/-- No layer below the top has the id of the mouse layer. -/
theorem Stacked.ids_ne (h : s.Stacked) {below : List LayerPtr} {mouse : LayerPtr}
    (herase : s.layerStack.erase layer = below ++ [mouse]) : ∀ l ∈ below, l.id ≠ mouse.id := by
  intro l hl heq
  have hin : ∀ l' ∈ below ++ [mouse], s.findLayer l'.id = some l' := by
    intro l' hl'
    rw [← herase] at hl'
    exact h.placed l' (List.mem_of_mem_erase hl')
  have hlayer := hin l (List.mem_append_left _ hl)
  rw [heq, hin mouse (by simp)] at hlayer
  obtain rfl := Option.some.inj hlayer
  have hnodup := h.nodup.erase layer
  rw [herase] at hnodup
  exact (List.nodup_append.mp hnodup).2.2 mouse hl mouse (by simp) rfl

/-! ## `Activate` -/

theorem setIndex_zero (h : s.Stacked) (hlayer : s.findLayer id = some layer) (hid : id ≠ s.mouseLayer) :
    s.setIndex id 0 = some { s with layerStack := layer :: s.layerStack.erase layer } := by
  obtain ⟨below, mouse, herase, -⟩ := h.erase_below hlayer hid
  have hlength : (s.layerStack.erase layer).length = below.length + 1 := by
    rw [herase, List.length_append]
    rfl
  rw [setIndex, if_neg (by omega)]
  dsimp only
  rw [hlayer]
  dsimp only
  split
  · rw [if_neg (by omega), if_neg (by simp [hlength])]
    simp
  · rename_i hout
    rw [List.erase_of_not_mem hout]
    simp

/-- The index of the top of the stack. -/
theorem getIndex_top {below : List LayerPtr} {mouse : LayerPtr} (hstack : s.layerStack = below ++ [mouse])
    (hbelow : ∀ l ∈ below, l.id ≠ mouse.id) : s.getIndex mouse.id = below.length := by
  have hnone : below.findIdx? (fun l => decide (l.id = mouse.id)) = none := by
    rw [List.findIdx?_eq_none_iff]
    exact fun l hl => decide_eq_false (hbelow l hl)
  rw [getIndex, hstack, List.findIdx?_append, hnone]
  simp

theorem insertIdx_length_append {α : Type} (l m : List α) (a : α) : (l ++ m).insertIdx l.length a = l ++ a :: m := by
  induction l with
  | nil => rfl
  | cons b l ih =>
    rw [List.cons_append, List.length_cons, List.insertIdx_succ_cons, ih]
    rfl

/-- The layer at the bottom goes right below the top. -/
theorem setIndex_below {below : List LayerPtr} {mouse : LayerPtr} (hlayer : s.findLayer id = some layer)
    (hstack : s.layerStack = layer :: (below ++ [mouse])) :
    s.setIndex id below.length = some { s with layerStack := below ++ [layer, mouse] } := by
  have hmin : min ((below.length : Int).toNat) s.layerStack.length = below.length := by
    rw [hstack, List.length_cons, List.length_append]
    omega
  have herase : s.layerStack.erase layer = below ++ [mouse] := by rw [hstack, List.erase_cons_head]
  have hinsert := insertIdx_length_append below [mouse] layer
  rw [setIndex, if_neg (by omega)]
  dsimp only
  rw [hlayer, hmin]
  dsimp only
  rw [if_pos (by rw [hstack]; exact List.mem_cons_self), herase, if_neg (by simp), if_neg (by simp), hinsert]

theorem Inv.deactivate (h : s.Inv) : s.deactivate = some { s with activated := fun _ => false } := by
  have hoff : ∀ w, ¬ s.IsActive w → s.activated w = false := fun w hw => by
    rw [← Bool.not_eq_true, h.activated]
    exact hw
  by_cases hactive : s.activeLayer > 0
  · obtain ⟨layer, hlayer⟩ := h.live (by omega)
    have hall : Function.update s.activated layer.number false = fun _ => false := by
      funext w
      by_cases hw : w = layer.number
      · rw [hw, Function.update_self]
      · rw [Function.update_of_ne hw]
        apply hoff
        rintro ⟨-, layer', hlayer', rfl⟩
        rw [hlayer] at hlayer'
        cases hlayer'
        exact hw rfl
    rw [LayerSystem.deactivate, if_pos hactive, hlayer, Option.map_some, setActivated, hall]
  · have hall : s.activated = fun _ => false := by
      funext w
      exact hoff w fun hw => hw.1 (by omega)
    rw [LayerSystem.deactivate, if_neg hactive, ← hall]

/-- `Activate` of another layer: it goes right below the mouse layer, and its window alone is active. -/
theorem Inv.activate_layer (h : s.Inv) (hlayer : s.findLayer id = some layer) (hid : id ≠ s.mouseLayer)
    (hpos : id ≠ 0) (hne : s.activeLayer ≠ id) :
    ∃ below mouse, s.layerStack.erase layer = below ++ [mouse] ∧ mouse.id = s.mouseLayer ∧ layer ∉ below ∧
      mouse ≠ layer ∧
      s.activate id = some { s with layerStack := below ++ [layer, mouse], activeLayer := id,
                                    activated := Function.update (fun _ => false) layer.number true } := by
  obtain ⟨below, mouse, herase, hmouse, hother, hout⟩ := h.toStacked.erase_below hlayer hid
  refine ⟨below, mouse, herase, hmouse, hout, hother, ?_⟩
  -- the state in which the layer is moved
  set s₁ : LayerSystem := { s with activeLayer := id,
                                   activated := Function.update (fun _ => false) layer.number true } with hs₁
  have hstacked : s₁.Stacked := ⟨h.placed, h.nodup, h.top⟩
  have hids : ∀ l ∈ layer :: below, l.id ≠ mouse.id := by
    intro l hl heq
    rcases List.mem_cons.mp hl with rfl | hl
    · exact hid ((findLayer_id hlayer).symm.trans (heq.trans hmouse))
    · exact h.toStacked.ids_ne herase l hl heq
  have hzero : s₁.setIndex id 0 = some { s₁ with layerStack := layer :: (below ++ [mouse]) } := by
    rw [setIndex_zero hstacked hlayer hid, ← herase]
  have hindex : LayerSystem.getIndex { s₁ with layerStack := layer :: (below ++ [mouse]) } s.mouseLayer - 1 =
      below.length := by
    have hstack : LayerSystem.layerStack { s₁ with layerStack := layer :: (below ++ [mouse]) } =
        layer :: below ++ [mouse] := rfl
    have htop := getIndex_top hstack hids
    rw [hmouse] at htop
    rw [htop]
    simp
  have hfind₁ : LayerSystem.findLayer { s₁ with layerStack := layer :: (below ++ [mouse]) } id = some layer := hlayer
  have hbelow := setIndex_below hfind₁ rfl
  have hfind : LayerSystem.findLayer { s with activeLayer := id, activated := fun _ => false } id = some layer := hlayer
  rw [activate, if_neg hne, h.deactivate, Option.bind_some]
  dsimp only
  rw [if_pos (by omega), hfind, Option.bind_some]
  change (s₁.setIndex id 0).bind _ = _
  rw [hzero, Option.bind_some]
  change LayerSystem.setIndex _ id (LayerSystem.getIndex _ s.mouseLayer - 1) = _
  rw [hindex, hbelow]

theorem Inv.activate_zero (h : s.Inv) :
    s.activate 0 = some { s with activeLayer := 0, activated := fun _ => false } := by
  rw [activate]
  split
  · rename_i hzero
    have hall : s.activated = fun _ => false := by
      funext w
      rw [← Bool.not_eq_true, h.activated]
      exact fun hw => hw.1 hzero
    rw [← hall, ← hzero]
  · rw [h.deactivate]
    rfl

/-! ## The steps -/

/-- A new layer does not take the id of a living one from it. -/
theorem findLayer_newLayer (h : s.findLayer id = some layer) : s.newLayer.findLayer id = some layer := by
  unfold findLayer newLayer at *
  dsimp only
  rw [List.find?_append, h]
  rfl

theorem Inv.newLayer (h : s.Inv) : s.newLayer.Inv := by
  refine ⟨⟨fun l hl => findLayer_newLayer (h.placed l hl), h.nodup, h.top⟩, fun hactive => ?_, fun w => ?_⟩
  · obtain ⟨layer, hlayer⟩ := h.live hactive
    exact ⟨layer, findLayer_newLayer hlayer⟩
  · rw [show s.newLayer.activated w = s.activated w from rfl, h.activated]
    refine and_congr_right fun hactive => ?_
    obtain ⟨layer, hlayer⟩ := h.live hactive
    rw [hlayer, show s.newLayer.activeLayer = s.activeLayer from rfl, findLayer_newLayer hlayer]

/-- The state after `Activate` of another layer. -/
theorem Inv.moved (h : s.Inv) {below : List LayerPtr} {mouse : LayerPtr} (hlayer : s.findLayer id = some layer)
    (hzero : id ≠ 0) (herase : s.layerStack.erase layer = below ++ [mouse]) (hmouse : mouse.id = s.mouseLayer)
    (hout : layer ∉ below) (hother : mouse ≠ layer) :
    Inv { s with layerStack := below ++ [layer, mouse], activeLayer := id,
                 activated := Function.update (fun _ => false) layer.number true } := by
  have hnodup := h.nodup.erase layer
  rw [herase] at hnodup
  refine ⟨⟨fun l hl => ?_, ?_, below ++ [layer], mouse, by simp, hmouse⟩, fun _ => ⟨layer, hlayer⟩, fun w => ?_⟩
  · have hcases : l = layer ∨ l ∈ below ++ [mouse] := by
      simp only [List.mem_append, List.mem_cons, List.not_mem_nil, or_false] at hl ⊢
      tauto
    rcases hcases with rfl | hl
    · exact (congrArg s.findLayer (findLayer_id hlayer)).trans hlayer
    · rw [← herase] at hl
      exact h.placed l (List.mem_of_mem_erase hl)
  · have hperm : (below ++ [layer, mouse]).Perm (layer :: (below ++ [mouse])) := List.perm_middle
    refine hperm.nodup_iff.mpr (List.nodup_cons.mpr ⟨?_, hnodup⟩)
    simp only [List.mem_append, List.mem_singleton, not_or]
    exact ⟨hout, hother.symm⟩
  · have hwindow : Function.update (fun _ => false) layer.number true w = true ↔ layer.number = w := by
      rw [Function.update_apply]
      split <;> simp_all [eq_comm]
    refine hwindow.trans ⟨fun hw => ⟨hzero, layer, hlayer, hw⟩, ?_⟩
    rintro ⟨-, layer', hlayer', hw⟩
    cases hlayer.symm.trans hlayer'
    exact hw

theorem Inv.activate (h : s.Inv) (hid : s.Activatable id) :
    ∃ s', s.activate id = some s' ∧ s'.Inv ∧ s'.mouseLayer = s.mouseLayer := by
  by_cases hsame : s.activeLayer = id
  · exact ⟨s, if_pos hsame, h, rfl⟩
  by_cases hzero : id = 0
  · subst hzero
    refine ⟨_, h.activate_zero, ⟨⟨h.placed, h.nodup, h.top⟩, fun hactive => absurd rfl hactive, fun w => ?_⟩, rfl⟩
    exact iff_of_false (by simp) fun hw => hw.1 rfl
  · obtain ⟨hlive, hmouse⟩ := hid.resolve_left hzero
    obtain ⟨layer, hlayer⟩ := Option.isSome_iff_exists.mp hlive
    obtain ⟨below, mouse, herase, htop, hout, hother, hrun⟩ := h.activate_layer hlayer hmouse hzero hsame
    exact ⟨_, hrun, h.moved hlayer hzero herase htop hout hother, rfl⟩

theorem find?_filter_ne {l : List LayerPtr} {id' : Nat} (hne : id' ≠ id) :
    (l.filter (·.id ≠ id)).find? (·.id = id') = l.find? (·.id = id') := by
  rw [List.find?_filter]
  congr 1
  funext l
  by_cases hl : l.id = id'
  · simp [hl, hne]
  · simp [hl]

theorem Inv.closeLayer (h : s.Inv) (hid : id ≠ s.mouseLayer) :
    ∃ err s', s.closeLayer id = some (err, s') ∧ s'.Inv ∧ s'.mouseLayer = s.mouseLayer := by
  cases hlayer : s.findLayer id with
  | none =>
    refine ⟨.kNoSuchEntry, s, ?_, h, rfl⟩
    rw [LayerSystem.closeLayer, hlayer]
  | some layer =>
    obtain ⟨below, mouse, herase, hmouse, -⟩ := h.toStacked.erase_below hlayer hid
    have hfind : LayerSystem.findLayer { s with activeLayer := 0, activated := fun _ => false } id = some layer := hlayer
    have hhide : LayerSystem.hide { s with activeLayer := 0, activated := fun _ => false } id =
        { s with activeLayer := 0, activated := fun _ => false, layerStack := s.layerStack.erase layer } := by
      rw [hide, hfind]
    refine ⟨.kSuccess, { s with activeLayer := 0, activated := fun _ => false,
                                layerStack := s.layerStack.erase layer, layers := s.layers.filter (·.id ≠ id) }, ?_, ?_, rfl⟩
    · rw [LayerSystem.closeLayer, hlayer]
      dsimp only
      rw [h.activate_zero, Option.map_some, removeLayer, hhide]
    · refine ⟨⟨fun l hl => ?_, h.nodup.erase layer, below, mouse, herase, hmouse⟩, fun hactive => absurd rfl hactive,
        fun w => iff_of_false (by simp) fun hw => hw.1 rfl⟩
      -- another layer of the stack has another id
      have hplaced := h.placed l (List.mem_of_mem_erase hl)
      have hne : l.id ≠ id := by
        intro heq
        rw [heq, hlayer] at hplaced
        cases hplaced
        exact h.nodup.not_mem_erase hl
      exact (find?_filter_ne hne).trans hplaced

theorem Inv.step {event : LayerEvent} (h : s.Inv) (hstep : LayerStep s event s') : s'.Inv := by
  cases hstep with
  | newLayer => exact h.newLayer
  | activate id _ hid hrun =>
    obtain ⟨s₁, heq, hinv, -⟩ := h.activate hid
    obtain rfl : s₁ = s' := Option.some.inj (heq.symm.trans hrun)
    exact hinv
  | closeLayer id err _ hid hrun =>
    obtain ⟨err₁, s₁, heq, hinv, -⟩ := h.closeLayer hid
    cases heq.symm.trans hrun
    exact hinv

theorem Start.inv (h : s.Start) : s.Inv := by
  refine ⟨h.toStacked, fun hactive => absurd h.none_active hactive, fun w => ?_⟩
  rw [h.none_activated]
  exact iff_of_false (by decide) fun hw => hw.1 h.none_active

theorem Inv.of_reachable (h : Reachable Start (fun s s' => ∃ event, LayerStep s event s') s) : s.Inv :=
  h.invariant (fun _ hstart => hstart.inv) fun _ _ hinv ⟨_, hstep⟩ => hinv.step hstep

end LayerSystem

open LayerSystem

/-- **The active layer is consistent.**  It lives, its window alone is active, and the mouse layer is on top; and
`Activate` of another layer puts that layer right below the mouse layer and leaves the others in their order. -/
theorem active_layer_consistent {s : LayerSystem}
    (h : Reachable Start (fun s s' => ∃ event, LayerStep s event s') s) :
    (s.activeLayer = 0 ∨ ∃ layer ∈ s.layers, layer.id = s.activeLayer) ∧
      (∀ w, s.activated w = true ↔ s.IsActive w) ∧
      (∃ below mouse, s.layerStack = below ++ [mouse] ∧ mouse.id = s.mouseLayer) ∧
      (∀ id, id ≠ s.mouseLayer → (s.closeLayer id).isSome) ∧
      ∀ id, s.Activatable id → ∃ s', s.activate id = some s' ∧ s'.mouseLayer = s.mouseLayer ∧ s'.activeLayer = id ∧
        (s.activeLayer ≠ id → id ≠ 0 → ∃ below layer mouse, s.findLayer id = some layer ∧ mouse.id = s.mouseLayer ∧
          s'.layerStack = below ++ [layer, mouse] ∧ s.layerStack.erase layer = below ++ [mouse]) := by
  have hinv := Inv.of_reachable h
  refine ⟨?_, hinv.activated, hinv.top, fun id hid => ?_, fun id hid => ?_⟩
  · by_cases hactive : s.activeLayer = 0
    · exact .inl hactive
    · obtain ⟨layer, hlayer⟩ := hinv.live hactive
      exact .inr ⟨layer, List.mem_of_find?_eq_some hlayer, findLayer_id hlayer⟩
  · obtain ⟨err, s', hrun, -⟩ := hinv.closeLayer hid
    rw [hrun]
    rfl
  · by_cases hsame : s.activeLayer = id
    · exact ⟨s, if_pos hsame, rfl, hsame, fun hne => absurd hsame hne⟩
    by_cases hzero : id = 0
    · subst hzero
      exact ⟨_, hinv.activate_zero, rfl, rfl, fun _ hne => absurd rfl hne⟩
    · obtain ⟨hlive, hmouse⟩ := hid.resolve_left hzero
      obtain ⟨layer, hlayer⟩ := Option.isSome_iff_exists.mp hlive
      obtain ⟨below, mouse, herase, htop, -, -, hrun⟩ := hinv.activate_layer hlayer hmouse hzero hsame
      exact ⟨_, hrun, rfl, rfl, fun _ _ => ⟨below, layer, mouse, hlayer, htop, rfl, herase⟩⟩

/-- The desktop and the mouse layer. -/
def LayerSystem.desktop : LayerSystem :=
  { layers := [⟨0, 1⟩, ⟨1, 2⟩], layerStack := [⟨0, 1⟩, ⟨1, 2⟩], lastId := 2, made := 2, activeLayer := 0, mouseLayer := 2,
    activated := fun _ => false }

/-- Two windows are opened, the first is activated and closed, then the second is activated. -/
theorem active_layer_of_desktop : ∃ s : LayerSystem, s.activeLayer = 4 ∧ s.activated 3 = true ∧
    ∃ below mouse, s.layerStack = below ++ [mouse] ∧ mouse.id = s.mouseLayer := by
  have hstart : desktop.Start :=
    ⟨⟨by decide, by decide, [⟨0, 1⟩], ⟨1, 2⟩, rfl, rfl⟩, rfl, fun _ => rfl⟩
  have hrun : Reachable Start (fun s s' => ∃ event, LayerStep s event s') desktop := .start hstart
  have hrun := hrun.next ⟨.newLayer, .newLayer⟩
  have hrun := hrun.next ⟨.newLayer, .newLayer⟩
  have hrun := hrun.next ⟨.activate 3, .activate 3 _ (.inr ⟨by decide, by decide⟩) rfl⟩
  have hrun := hrun.next ⟨.closeLayer 3, .closeLayer 3 .kSuccess _ (by decide) rfl⟩
  have hrun := hrun.next ⟨.activate 4, .activate 4 _ (.inr ⟨by decide, by decide⟩) rfl⟩
  exact ⟨_, rfl, rfl, (active_layer_consistent hrun).2.2.1⟩

end MikanSaos
