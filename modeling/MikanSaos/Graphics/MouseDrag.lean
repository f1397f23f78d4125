import MikanSaos.Graphics.MouseCursor
import MikanSaos.Reasoning.Outcome

/-!
# MouseDrag — which layers `Move` and `MoveRelative` are called for

The mouse keeps the id of the layer that it drags from one event to the next.  `CloseLayer` does not tell it
when that layer goes, and `MoveRelative` does not look.
-/

open Reasoning

namespace MikanSaos

namespace LayerSystem

variable {s s' : LayerSystem} {id : Nat} {index : Int} {layer : LayerPtr}

/-- The stack holds layers that their ids name, each once. -/
structure Placed (s : LayerSystem) : Prop where
  placed : ∀ layer ∈ s.layerStack, s.findLayer layer.id = some layer
  nodup : s.layerStack.Nodup

theorem findLayer_congr (h : s'.layers = s.layers) (id : Nat) : s'.findLayer id = s.findLayer id := by
  unfold findLayer
  rw [h]

theorem Placed.hide (h : s.Placed) (id : Nat) : (s.hide id).Placed ∧ (s.hide id).layers = s.layers := by
  unfold LayerSystem.hide
  cases s.findLayer id with
  | none => exact ⟨h, rfl⟩
  | some layer => exact ⟨⟨fun l hl => h.placed l (List.mem_of_mem_erase hl), h.nodup.erase layer⟩, rfl⟩

theorem nodup_insertIdx {l : List LayerPtr} (hnodup : l.Nodup) (hout : layer ∉ l) (k : Nat) :
    (l.insertIdx k layer).Nodup := by
  by_cases hk : k ≤ l.length
  · rw [(List.perm_insertIdx layer l hk).nodup_iff]
    exact List.nodup_cons.mpr ⟨hout, hnodup⟩
  · rw [List.insertIdx_of_length_lt (by omega)]
    exact hnodup

/-- `SetIndex` puts a layer that lives into the stack, or takes one out. -/
theorem Placed.setIndex (h : s.Placed) (hrun : s.setIndex id index = some s') :
    s'.Placed ∧ s'.layers = s.layers := by
  unfold LayerSystem.setIndex at hrun
  split at hrun
  · cases hrun
    exact h.hide _
  dsimp only at hrun
  cases hlayer : s.findLayer id with
  | none =>
    rw [hlayer] at hrun
    cases hrun
  | some layer =>
    rw [hlayer] at hrun
    dsimp only at hrun
    have hself : s.findLayer layer.id = some layer := (findLayer_id hlayer).symm ▸ hlayer
    -- the layer goes to a place in a list that does not hold it
    have hinsert : ∀ (rest : List LayerPtr) (k : Nat), rest.Nodup → layer ∉ rest → rest ⊆ s.layerStack →
        Placed { s with layerStack := rest.insertIdx k layer } := by
      intro rest k hnodup hout hsub
      refine ⟨fun l hl => ?_, nodup_insertIdx hnodup hout k⟩
      rcases List.eq_or_mem_of_mem_insertIdx hl with rfl | hin
      · exact hself
      · exact h.placed l (hsub hin)
    split at hrun
    · split at hrun
      · cases hrun
      · cases hrun
        exact ⟨hinsert _ _ (h.nodup.erase layer) h.nodup.not_mem_erase List.erase_subset, rfl⟩
    · rename_i hout
      cases hrun
      exact ⟨hinsert _ _ h.nodup hout (List.Subset.refl _), rfl⟩

theorem Placed.activate (h : s.Placed) (hrun : s.activate id = some s') :
    s'.Placed ∧ s'.layers = s.layers := by
  have hoff : ∀ s₁, s.deactivate = some s₁ → s₁.Placed ∧ s₁.layers = s.layers := by
    intro s₁ hrun
    unfold deactivate at hrun
    split at hrun
    · obtain ⟨layer, -, rfl⟩ := Option.map_eq_some_iff.mp hrun
      exact ⟨⟨h.placed, h.nodup⟩, rfl⟩
    · cases hrun
      exact ⟨h, rfl⟩
  unfold LayerSystem.activate at hrun
  split at hrun
  · cases hrun
    exact ⟨h, rfl⟩
  obtain ⟨s₁, hdeactivate, hrun⟩ := Option.bind_eq_some_iff.mp hrun
  obtain ⟨hplaced₁, hlayers₁⟩ := hoff s₁ hdeactivate
  dsimp only at hrun
  split at hrun
  · obtain ⟨layer, -, hrun⟩ := Option.bind_eq_some_iff.mp hrun
    obtain ⟨s₂, hzero, hrun⟩ := Option.bind_eq_some_iff.mp hrun
    have hstart : (LayerSystem.setActivated { s₁ with activeLayer := id } layer true).Placed :=
      ⟨hplaced₁.placed, hplaced₁.nodup⟩
    obtain ⟨hplaced₂, hlayers₂⟩ := hstart.setIndex hzero
    obtain ⟨hplaced₃, hlayers₃⟩ := hplaced₂.setIndex hrun
    exact ⟨hplaced₃, hlayers₃.trans (hlayers₂.trans hlayers₁)⟩
  · cases hrun
    exact ⟨⟨hplaced₁.placed, hplaced₁.nodup⟩, hlayers₁⟩

theorem Placed.newLayer (h : s.Placed) : s.newLayer.Placed :=
  ⟨fun l hl => findLayer_newLayer (h.placed l hl), h.nodup⟩

/-- After `CloseLayer` no layer has the id, and the others are there. -/
theorem Placed.closeLayer {err : Error} (h : s.Placed) (hrun : s.closeLayer id = some (err, s')) :
    s'.Placed ∧ s'.findLayer id = none ∧ ∀ id', id' ≠ id → s'.findLayer id' = s.findLayer id' := by
  unfold LayerSystem.closeLayer at hrun
  cases hlayer : s.findLayer id with
  | none =>
    rw [hlayer] at hrun
    cases hrun
    exact ⟨h, hlayer, fun _ _ => rfl⟩
  | some layer =>
    rw [hlayer] at hrun
    obtain ⟨s₁, hactivate, heq⟩ := Option.map_eq_some_iff.mp hrun
    obtain ⟨-, rfl⟩ := Prod.mk.inj heq
    obtain ⟨hplaced, hlayers⟩ := h.activate hactivate
    have hlayer₁ : s₁.findLayer id = some layer := (findLayer_congr hlayers id).trans hlayer
    have hremove : s₁.removeLayer id = { s₁ with layerStack := s₁.layerStack.erase layer,
                                                 layers := s₁.layers.filter (·.id ≠ id) } := by
      unfold removeLayer LayerSystem.hide
      rw [hlayer₁]
    have hother : ∀ id', id' ≠ id → (s₁.removeLayer id).findLayer id' = s₁.findLayer id' := by
      intro id' hne
      rw [hremove]
      exact find?_filter_ne hne
    refine ⟨⟨fun l hl => ?_, ?_⟩, ?_, fun id' hne => (hother id' hne).trans (findLayer_congr hlayers id')⟩
    · rw [hremove] at hl
      have hl' : l ∈ s₁.layerStack.erase layer := hl
      have hl₁ := hplaced.placed l (List.mem_of_mem_erase hl')
      have hne : l.id ≠ id := by
        intro heq
        rw [heq, hlayer₁] at hl₁
        cases hl₁
        exact hplaced.nodup.not_mem_erase hl'
      exact (hother l.id hne).trans hl₁
    · rw [hremove]
      exact hplaced.nodup.erase layer
    · rw [hremove]
      refine List.find?_eq_none.mpr fun l hl => ?_
      simpa using (List.mem_filter.mp hl).2

end LayerSystem

def LayerFault.IsMove (fault : LayerFault) : Prop := ∃ id, fault = .move id

namespace Desktop

variable {s s' : Desktop} {id : Nat} {pos : Vector2D}

/-- The mouse layer and the layer that is dragged are there, and so are the layers of the stack. -/
structure Live (s : Desktop) : Prop where
  placed : s.toLayerSystem.Placed
  mouse : (s.findLayer s.mouse.layerId).isSome
  drag : s.mouse.dragLayerId ≠ 0 → (s.findLayer s.mouse.dragLayerId).isSome

/-- Between two events: a layer is dragged only while the left button is down. -/
structure Inv (s : Desktop) : Prop extends Live s where
  held : s.mouse.dragLayerId ≠ 0 → leftPressed s.mouse.previousButtons = true

/-! ## The operations -/

theorem Live.congr (h : s.Live) (hlayers : s'.toLayerSystem = s.toLayerSystem) (hmouse : s'.mouse = s.mouse) :
    s'.Live := by
  refine ⟨hlayers ▸ h.placed, ?_, ?_⟩
  · rw [hlayers, hmouse]
    exact h.mouse
  · rw [hlayers, hmouse]
    exact h.drag

theorem Live.setMouse (h : s.Live) {mouse : MouseCursor} (hid : mouse.layerId = s.mouse.layerId)
    (hdrag : mouse.dragLayerId ≠ 0 → (s.findLayer mouse.dragLayerId).isSome) : (s.setMouse mouse).Live :=
  ⟨h.placed, hid ▸ h.mouse, hdrag⟩

theorem move_found {layer : LayerPtr} (hlayer : s.findLayer id = some layer) :
    s.move id pos = .ok (s.setPos layer pos) := by
  rw [Desktop.move, hlayer]

theorem move_gone (hgone : s.findLayer id = none) : s.move id pos = .error (.move id) := by
  rw [Desktop.move, hgone]

theorem Live.move (h : s.Live) (hid : (s.findLayer id).isSome) :
    Yields LayerFault.IsMove (fun s' => s'.Live ∧ s'.mouse = s.mouse) (s.move id pos) := by
  obtain ⟨layer, hlayer⟩ := Option.isSome_iff_exists.mp hid
  rw [move_found hlayer]
  exact ⟨h.congr rfl rfl, rfl⟩

theorem Live.moveRelative (h : s.Live) (hid : (s.findLayer id).isSome) :
    Yields LayerFault.IsMove (fun s' => s'.Live ∧ s'.mouse = s.mouse) (s.moveRelative id pos) := by
  obtain ⟨layer, hlayer⟩ := Option.isSome_iff_exists.mp hid
  rw [Desktop.moveRelative, hlayer]
  exact ⟨h.congr rfl rfl, rfl⟩

/-- An operation on the stack that keeps the layers. -/
theorem Live.withLayers (h : s.Live) {r : Option LayerSystem}
    (hr : ∀ layers, r = some layers → layers.Placed ∧ layers.layers = s.layers) :
    Yields LayerFault.IsMove (fun s' => s'.Live ∧ s'.mouse = s.mouse) (s.withLayers r) := by
  cases r with
  | none =>
    rintro ⟨id, hid⟩
    cases hid
  | some layers =>
    obtain ⟨hplaced, hlayers⟩ := hr layers rfl
    have hfind := LayerSystem.findLayer_congr hlayers
    refine ⟨⟨hplaced, ?_, fun hdrag => ?_⟩, rfl⟩
    · exact (congrArg Option.isSome (hfind _)).trans h.mouse
    · exact (congrArg Option.isSome (hfind _)).trans (h.drag hdrag)

theorem Live.activate (h : s.Live) (id : Nat) :
    Yields LayerFault.IsMove (fun s' => s'.Live ∧ s'.mouse = s.mouse) (s.activate id) :=
  h.withLayers fun _ hrun => h.placed.activate hrun

theorem Live.setIndex (h : s.Live) (id : Nat) (index : Int) :
    Yields LayerFault.IsMove (fun s' => s'.Live ∧ s'.mouse = s.mouse) (s.setIndex id index) :=
  h.withLayers fun _ hrun => h.placed.setIndex hrun

/-- A new layer, which its id names, or an older one. -/
theorem Live.newLayer (h : s.Live) (view : WindowView) :
    (s.newLayer view).2.Live ∧ (s.newLayer view).2.mouse = s.mouse ∧
      ((s.newLayer view).2.findLayer (s.newLayer view).1.id).isSome := by
  have hmono : ∀ id, (s.findLayer id).isSome → ((s.newLayer view).2.findLayer id).isSome := by
    intro id hid
    obtain ⟨layer, hlayer⟩ := Option.isSome_iff_exists.mp hid
    rw [Option.isSome_iff_exists]
    exact ⟨layer, LayerSystem.findLayer_newLayer hlayer⟩
  refine ⟨⟨h.placed.newLayer, hmono _ h.mouse, fun hdrag => hmono _ (h.drag hdrag)⟩, rfl, ?_⟩
  rw [LayerSystem.findLayer, List.find?_isSome]
  exact ⟨(s.newLayer view).1, List.mem_append_right _ (List.mem_singleton_self _), by simp⟩

/-! ## The buttons -/

theorem findLayerByPosition_mem {layer : LayerPtr} {excludeId : Nat}
    (h : s.findLayerByPosition pos excludeId = some layer) : layer ∈ s.layerStack :=
  List.mem_reverse.mp (List.mem_of_find?_eq_some h)

/-- What is dragged after the left button went down is a layer of the stack. -/
theorem Live.press (h : s.Live) {layer : Option LayerPtr} (hlayer : ∀ l, layer = some l → l ∈ s.layerStack) :
    Yields LayerFault.IsMove (fun r => r.2.Live) (s.press layer) := by
  have hactivate : ∀ {s₁ : Desktop} (id closeLayerId : Nat), s₁.Live →
      Yields LayerFault.IsMove (fun r => r.2.Live) ((s₁.activate id).map fun s => (closeLayerId, s)) :=
    fun id _ hs₁ => (hs₁.activate id).map fun _ hs => hs.1
  cases layer with
  | none => exact hactivate 0 0 h
  | some layer =>
    have hfind := h.placed.placed layer (hlayer layer rfl)
    unfold Desktop.press
    dsimp only
    split
    · split
      · refine hactivate layer.id 0 (h.setMouse rfl fun _ => ?_)
        rw [hfind]
        rfl
      · exact hactivate layer.id layer.id h
      · exact hactivate layer.id 0 h
    · exact hactivate 0 0 h

theorem Live.leftButtonDown (h : s.Live) :
    Yields LayerFault.IsMove (fun r => r.2.Live) s.leftButtonDown := by
  refine (h.press fun l hl => findLayerByPosition_mem hl).map fun r hr => ?_
  exact hr.setMouse rfl hr.drag

theorem Live.onDrag (h : s.Live) (posdiff : Vector2D) :
    Yields LayerFault.IsMove (fun s' => s'.Live) (s.onDrag posdiff) := by
  unfold Desktop.onDrag
  split
  · rename_i hdrag
    exact (h.moveRelative (h.drag (Nat.ne_of_gt hdrag))).mono fun _ hs => hs.1
  · exact Yields.pure h

theorem Live.leftButtonUp (h : s.Live) : s.leftButtonUp.Live :=
  h.setMouse rfl fun hdrag => absurd rfl hdrag

/-- After the event a layer is dragged only if the left button is down. -/
theorem Inv.onLeftButton (h : s.Inv) (buttons : UInt8) (posdiff : Vector2D) :
    Yields LayerFault.IsMove
      (fun r => r.2.Live ∧ (r.2.mouse.dragLayerId ≠ 0 → leftPressed buttons = true))
      (s.onLeftButton buttons posdiff) := by
  unfold Desktop.onLeftButton
  cases hprevious : leftPressed s.mouse.previousButtons with
  | false =>
    cases hleft : leftPressed buttons with
    | true => exact h.toLive.leftButtonDown.mono fun _ hr => ⟨hr, fun _ => rfl⟩
    | false =>
      refine Yields.pure ⟨h.toLive, fun hdrag => ?_⟩
      rw [h.held hdrag] at hprevious
      cases hprevious
  | true =>
    cases hleft : leftPressed buttons with
    | true => exact (h.toLive.onDrag posdiff).map fun _ hs => ⟨hs, fun _ => rfl⟩
    | false => exact Yields.pure ⟨h.toLive.leftButtonUp, fun hdrag => absurd rfl hdrag⟩

theorem Inv.onInterrupt (h : s.Inv) (buttons : UInt8) (displacementX displacementY : Int8) :
    Yields LayerFault.IsMove (fun r => r.2.Inv) (s.onInterrupt buttons displacementX displacementY) := by
  unfold Desktop.onInterrupt
  dsimp only
  generalize Vector2D.elementMax _ _ = position
  have hpositioned : (s.setMouse { s.mouse with position := position }).Live := h.toLive.setMouse rfl h.drag
  refine (hpositioned.move h.mouse).bind fun s₁ hs₁ => ?_
  have hinv : s₁.Inv := ⟨hs₁.1, fun hdrag => by
    rw [hs₁.2] at hdrag ⊢
    exact h.held hdrag⟩
  refine (hinv.onLeftButton buttons _).bind fun r hr => Yields.pure ?_
  exact ⟨hr.1.setMouse rfl hr.1.drag, hr.2⟩

end Desktop

/-! ## Runs -/

inductive DesktopEvent where
  | mouse (buttons : UInt8) (displacementX displacementY : Int8)
  | openWindow (size pos : Vector2D) (task : Nat)
  | openTerminal (pos : Vector2D) (task : Nat)
  | openWallclock
  | closeLayer (id : Nat)

def DesktopEvent.run (s : Desktop) : DesktopEvent → Except LayerFault Desktop
  | mouse buttons displacementX displacementY =>
    (s.onInterrupt buttons displacementX displacementY).map Prod.snd
  | openWindow size pos task => (s.openWindow size pos task).map Prod.snd
  | openTerminal pos task => s.openTerminal pos task
  | openWallclock => s.openWallclock
  | closeLayer id => (s.closeLayer id).map Prod.snd

def DesktopStep (s : Desktop) (event : DesktopEvent) (s' : Desktop) : Prop := event.run s = .ok s'

namespace Desktop

variable {s s' : Desktop} {id : Nat}

/-- The state after `InitializeMouse`. -/
structure Start (s : Desktop) : Prop where
  layers : s.toLayerSystem.Start
  mouse : s.mouse.layerId = s.mouseLayer
  none_dragged : s.mouse.dragLayerId = 0

/-- The layer is neither that of the mouse nor the one that is dragged. -/
def Spares (s : Desktop) (id : Nat) : Prop :=
  id ≠ s.mouse.layerId ∧ (s.mouse.dragLayerId ≠ 0 → id ≠ s.mouse.dragLayerId)

/-- No window is closed while it is dragged, and the mouse layer never. -/
def Guard (s : Desktop) : DesktopEvent → Prop
  | .closeLayer id => s.Spares id
  | _ => True

theorem Start.inv (h : s.Start) : s.Inv := by
  obtain ⟨below, mouse, hstack, hmouse⟩ := h.layers.top
  have hplaced := h.layers.placed mouse (hstack ▸ List.mem_append_right _ (List.mem_singleton_self _))
  refine ⟨⟨⟨h.layers.placed, h.layers.nodup⟩, ?_, fun hdrag => absurd h.none_dragged hdrag⟩,
    fun hdrag => absurd h.none_dragged hdrag⟩
  rw [h.mouse, ← hmouse, hplaced]
  rfl

/-- The operations that leave the mouse alone keep the invariant. -/
theorem Inv.of_live (h : s.Inv) (hlive : s'.Live) (hmouse : s'.mouse = s.mouse) : s'.Inv := by
  refine ⟨hlive, fun hdrag => ?_⟩
  rw [hmouse] at hdrag ⊢
  exact h.held hdrag

theorem Live.insertTask (h : s.Live) (layerId task : Nat) :
    (s.insertTask layerId task).Live ∧ (s.insertTask layerId task).mouse = s.mouse := by
  unfold Desktop.insertTask
  split
  · exact ⟨h, rfl⟩
  · exact ⟨h.congr rfl rfl, rfl⟩

theorem Inv.openWindow (h : s.Inv) (size pos : Vector2D) (task : Nat) :
    Yields LayerFault.IsMove (fun r => r.2.Inv) (s.openWindow size pos task) := by
  obtain ⟨hnew, hmouse, -⟩ := h.toLive.newLayer ⟨pos, size, true, true⟩
  refine (hnew.activate _).bind fun s₁ hs₁ => Yields.pure ?_
  obtain ⟨hlive, hkept⟩ := hs₁.1.insertTask (s.newLayer ⟨pos, size, true, true⟩).1.id task
  exact h.of_live hlive (hkept.trans (hs₁.2.trans hmouse))

theorem Inv.openTerminal (h : s.Inv) (pos : Vector2D) (task : Nat) :
    Yields LayerFault.IsMove (fun s' => s'.Inv) (s.openTerminal pos task) := by
  obtain ⟨hnew, hmouse, hid⟩ := h.toLive.newLayer ⟨pos, terminalSize, true, true⟩
  refine (hnew.move hid).bind fun s₁ hs₁ => ?_
  obtain ⟨hlive, hkept⟩ := hs₁.1.insertTask (s.newLayer ⟨pos, terminalSize, true, true⟩).1.id task
  refine (hlive.activate _).mono fun s₂ hs₂ => ?_
  exact h.of_live hs₂.1 (hs₂.2.trans (hkept.trans (hs₁.2.trans hmouse)))

theorem Inv.openWallclock (h : s.Inv) : Yields LayerFault.IsMove (fun s' => s'.Inv) s.openWallclock := by
  unfold Desktop.openWallclock
  dsimp only
  generalize (⟨_, ⟨8 * 10, 16⟩, false, false⟩ : WindowView) = date
  generalize (⟨_, ⟨48, 48⟩, false, false⟩ : WindowView) = clock
  obtain ⟨hdate, hmouse₁, -⟩ := h.toLive.newLayer date
  obtain ⟨hclock, hmouse₂, -⟩ := hdate.newLayer clock
  refine (hclock.setIndex _ 2).bind fun s₁ hs₁ => (hs₁.1.setIndex _ 2).mono fun s₂ hs₂ => ?_
  exact h.of_live hs₂.1 (hs₂.2.trans (hs₁.2.trans (hmouse₂.trans hmouse₁)))

/-- `CloseLayer` of the desktop is that of the layers. -/
theorem closeLayer_cases (s : Desktop) (id : Nat) : s.closeLayer id = .error .stack ∨
    ∃ err s', s.closeLayer id = .ok (err, s') ∧ s'.mouse = s.mouse ∧
      s.toLayerSystem.closeLayer id = some (err, s'.toLayerSystem) := by
  unfold Desktop.closeLayer
  split
  · exact .inl rfl
  · rename_i layers hrun
    exact .inr ⟨_, _, rfl, rfl, hrun⟩
  · rename_i err layers _ hrun
    exact .inr ⟨_, _, rfl, rfl, hrun⟩

theorem Inv.closeLayer (h : s.Inv) (hid : s.Spares id) :
    Yields LayerFault.IsMove (fun r => r.2.Inv) (s.closeLayer id) := by
  rcases s.closeLayer_cases id with herr | ⟨err, s', hrun, hmouse, hlayers⟩
  · rw [herr]
    rintro ⟨id, hid⟩
    cases hid
  · obtain ⟨hplaced, -, hother⟩ := h.placed.closeLayer hlayers
    rw [hrun]
    refine Yields.pure (h.of_live ⟨hplaced, ?_, fun hdrag => ?_⟩ hmouse)
    · show (s'.findLayer s'.mouse.layerId).isSome
      rw [hmouse, hother _ (Ne.symm hid.1)]
      exact h.mouse
    · show (s'.findLayer s'.mouse.dragLayerId).isSome
      rw [hmouse] at hdrag ⊢
      rw [hother _ (Ne.symm (hid.2 hdrag))]
      exact h.drag hdrag

/-- What an event does that closes no layer that the mouse knows. -/
theorem Inv.run (h : s.Inv) {event : DesktopEvent} (hguard : s.Guard event) :
    Yields LayerFault.IsMove (fun s' => s'.Inv) (event.run s) := by
  cases event with
  | mouse buttons displacementX displacementY =>
    exact (h.onInterrupt buttons displacementX displacementY).map fun _ hr => hr
  | openWindow size pos task => exact (h.openWindow size pos task).map fun _ hr => hr
  | openTerminal pos task => exact h.openTerminal pos task
  | openWallclock => exact h.openWallclock
  | closeLayer id => exact (h.closeLayer hguard).map fun _ hr => hr

/-- `CloseLayer` moves no layer, whichever it closes. -/
theorem closeLayer_ne_move (s : Desktop) (id id' : Nat) :
    DesktopEvent.run s (.closeLayer id) ≠ .error (.move id') := by
  intro hrun
  rw [DesktopEvent.run] at hrun
  rcases s.closeLayer_cases id with herr | ⟨err, s', hok, -⟩
  · rw [herr] at hrun
    cases hrun
  · rw [hok] at hrun
    cases hrun

/-! ## A layer that is gone -/

variable {buttons : UInt8} {displacementX displacementY : Int8}

theorem onInterrupt_without_mouse (hgone : s.findLayer s.mouse.layerId = none) :
    s.onInterrupt buttons displacementX displacementY = .error (.move s.mouse.layerId) := by
  unfold Desktop.onInterrupt
  dsimp only
  generalize Vector2D.elementMax _ _ = position
  have hmove : (s.setMouse { s.mouse with position := position }).move s.mouse.layerId position =
      .error (.move s.mouse.layerId) := move_gone hgone
  exact congrArg (· >>= _) hmove

/-- A dragged layer that is gone is not looked for before it is moved. -/
theorem onLeftButton_without_dragged (posdiff : Vector2D) (hdrag : s.mouse.dragLayerId ≠ 0)
    (hgone : s.findLayer s.mouse.dragLayerId = none)
    (hprevious : leftPressed s.mouse.previousButtons = true) (hleft : leftPressed buttons = true) :
    s.onLeftButton buttons posdiff = .error (.move s.mouse.dragLayerId) := by
  have hdragged : s.onDrag posdiff = .error (.move s.mouse.dragLayerId) := by
    rw [Desktop.onDrag, if_pos (Nat.pos_of_ne_zero hdrag), Desktop.moveRelative, hgone]
  rw [Desktop.onLeftButton, hprevious, hleft]
  dsimp only
  rw [hdragged]
  rfl

theorem onInterrupt_without_dragged (hmouse : (s.findLayer s.mouse.layerId).isSome)
    (hdrag : s.mouse.dragLayerId ≠ 0) (hgone : s.findLayer s.mouse.dragLayerId = none)
    (hprevious : leftPressed s.mouse.previousButtons = true) (hleft : leftPressed buttons = true) :
    s.onInterrupt buttons displacementX displacementY = .error (.move s.mouse.dragLayerId) := by
  obtain ⟨layer, hlayer⟩ := Option.isSome_iff_exists.mp hmouse
  unfold Desktop.onInterrupt
  dsimp only
  generalize Vector2D.elementMax _ _ = position
  generalize hs₁ : (s.setMouse { s.mouse with position := position }).setPos layer position = s₁
  have hmove : (s.setMouse { s.mouse with position := position }).move s.mouse.layerId position = .ok s₁ := by
    rw [← hs₁]
    exact move_found hlayer
  have hbutton : s₁.onLeftButton buttons (position - s.mouse.position) = .error (.move s.mouse.dragLayerId) := by
    subst hs₁
    exact onLeftButton_without_dragged _ hdrag hgone hprevious hleft
  refine (congrArg (· >>= _) hmove).trans ?_
  show (s₁.onLeftButton buttons (position - s.mouse.position)) >>= _ = _
  rw [hbutton]
  rfl

/-- After a `CloseLayer` of the mouse layer or of the dragged one, the next event with the left button down
asks for a layer that is not there. -/
theorem Inv.closed (h : s.Inv) (hid : ¬ s.Spares id) (hrun : DesktopEvent.run s (.closeLayer id) = .ok s')
    (hleft : leftPressed buttons = true) :
    ∃ id', s'.onInterrupt buttons displacementX displacementY = .error (.move id') := by
  rw [DesktopEvent.run] at hrun
  rcases s.closeLayer_cases id with herr | ⟨err, s₁, hok, hmouse, hlayers⟩
  · rw [herr] at hrun
    cases hrun
  rw [hok] at hrun
  cases hrun
  obtain ⟨-, hgone, hother⟩ := h.placed.closeLayer hlayers
  by_cases hself : id = s.mouse.layerId
  · refine ⟨_, onInterrupt_without_mouse ?_⟩
    rw [hmouse, ← hself]
    exact hgone
  · -- the other way to miss the condition is a drag
    have hdragged : s.mouse.dragLayerId ≠ 0 ∧ id = s.mouse.dragLayerId := by
      by_contra hnot
      exact hid ⟨hself, fun hdrag heq => hnot ⟨hdrag, heq⟩⟩
    refine ⟨_, onInterrupt_without_dragged ?_ ?_ ?_ ?_ hleft⟩
    · rw [hmouse]
      exact (congrArg Option.isSome (hother _ (Ne.symm hself))).trans h.mouse
    · rw [hmouse]
      exact hdragged.1
    · rw [hmouse, ← hdragged.2]
      exact hgone
    · rw [hmouse]
      exact h.held hdragged.1

end Desktop

open Desktop

/-- **No operation on a removed layer.**  In every run that closes neither the mouse layer nor a layer while it
is dragged, `Move` and `MoveRelative` find the layers they are called for, whatever happens next; and a call
of `CloseLayer` that is not of this kind makes the next event with the left button down ask for a layer that
is not there. -/
theorem moves_existing_layers {s : Desktop} (h : Reachable Start (GuardedStep DesktopStep Guard) s) :
    (∀ event id, DesktopEvent.run s event ≠ .error (.move id)) ∧
      ∀ id s', ¬ s.Spares id → DesktopEvent.run s (.closeLayer id) = .ok s' →
        ∀ buttons displacementX displacementY, leftPressed buttons = true →
          ∃ id', s'.onInterrupt buttons displacementX displacementY = .error (.move id') := by
  have hinv : s.Inv := by
    apply h.invariant
    · exact fun _ hstart => hstart.inv
    · rintro s s' hi ⟨event, hguard, hstep⟩
      exact (hi.run hguard).of_ok hstep
  refine ⟨fun event id hrun => ?_, fun id s' hid hrun buttons _ _ hleft => hinv.closed hid hrun hleft⟩
  cases event with
  | closeLayer id' => exact s.closeLayer_ne_move id' id hrun
  | _ => exact (hinv.run (by trivial)).not_bad hrun ⟨id, rfl⟩

/-- A desktop of 800x600 pixels with the mouse in it. -/
def Desktop.empty : Desktop :=
  { LayerSystem.desktop with
    view := fun n => if n = 0 then ⟨⟨0, 0⟩, ⟨800, 600⟩, false, false⟩ else ⟨⟨100, 100⟩, ⟨15, 24⟩, false, false⟩
    layerTaskMap := fun _ => none
    screenSize := ⟨800, 600⟩
    mouse := { layerId := 2, position := ⟨100, 100⟩ } }

theorem Desktop.empty_start : Desktop.empty.Start :=
  ⟨⟨⟨by decide, by decide, [⟨0, 1⟩], ⟨1, 2⟩, rfl, rfl⟩, rfl, fun _ => rfl⟩, rfl, rfl⟩

/-- A window is opened under the mouse and pressed on its title bar. -/
theorem moves_existing_layers_drag : ∃ s : Desktop, s.mouse.dragLayerId = 3 ∧
    ∀ event id, DesktopEvent.run s event ≠ .error (.move id) := by
  have hrun : Reachable Start (GuardedStep DesktopStep Guard) Desktop.empty := .start Desktop.empty_start
  have hrun := hrun.next ⟨.openWindow ⟨160, 68⟩ ⟨80, 90⟩ 5, trivial, rfl⟩
  have hrun := hrun.next ⟨.mouse 1 0 0, trivial, rfl⟩
  exact ⟨_, by decide, (moves_existing_layers hrun).1⟩

/-- The window is closed in the middle of the drag, and the next event moves it. -/
theorem dragged_layer_gone : ∃ s : Desktop, Reachable Start (fun s s' => ∃ event, DesktopStep s event s') s ∧
    s.findLayer 3 = none ∧ DesktopEvent.run s (.mouse 1 5 0) = .error (.move 3) := by
  have hrun : Reachable Start (fun s s' => ∃ event, DesktopStep s event s') Desktop.empty :=
    .start Desktop.empty_start
  have hrun := hrun.next ⟨.openWindow ⟨160, 68⟩ ⟨80, 90⟩ 5, rfl⟩
  have hrun := hrun.next ⟨.mouse 1 0 0, rfl⟩
  have hrun := hrun.next ⟨.closeLayer 3, rfl⟩
  exact ⟨_, hrun, rfl, rfl⟩

end MikanSaos
