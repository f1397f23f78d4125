import MikanSaos.Graphics.MouseDrag

/-!
# MouseMessages — what a window is told about the mouse

`OnInterrupt` keeps the cursor on the screen in two steps, first at the right and the lower edge and then at the left
and the upper one.  The cursor goes to the result of the second step, and the messages are made of the first.
-/

namespace MikanSaos

open Reasoning

/-- The buttons that are down in one of the bytes and not in the other. -/
def changedButtons (previousButtons buttons : UInt8) : List Int :=
  ((List.range 8).filter fun i => previousButtons.toNat.testBit i != buttons.toNat.testBit i).map Int.ofNat

/-- The buttons that the `kMouseButton` messages are about. -/
def buttonsOf (messages : List (Nat × Message)) : List Int :=
  messages.filterMap fun
    | (_, .kMouseButton _ _ _ button) => some button
    | _ => none

/-- A displacement along one axis that leaves the cursor where it is. -/
def Blocked (size pos displacement : Int) : Prop :=
  displacement = 0 ∨ displacement < 0 ∧ pos = 0 ∨ 0 < displacement ∧ pos = size - 1

namespace Desktop

/-- The cursor is on one of the pixels of the screen. -/
def OnScreen (s : Desktop) : Prop := Rectangle.Contains ⟨⟨0, 0⟩, s.screenSize⟩ s.mouse.position

/-- The pixel of the screen that a displacement leads to. -/
def cursorAfter (s : Desktop) (displacementX displacementY : Int8) : Vector2D :=
  ⟨max 0 (min (s.mouse.position.x + displacementX.toInt) (s.screenSize.x - 1)),
    max 0 (min (s.mouse.position.y + displacementY.toInt) (s.screenSize.y - 1))⟩

/-- The cursor and its layer have been moved. -/
def placeCursor (s : Desktop) (position : Vector2D) : Desktop :=
  let moved := s.setMouse { s.mouse with position := position }
  match s.findLayer s.mouse.layerId with
  | none => moved
  | some layer => moved.setPos layer position

/-- The displacement goes over the left or the upper edge. -/
def PastEdge (s : Desktop) (displacementX displacementY : Int8) : Prop :=
  s.mouse.position.x + displacementX.toInt < 0 ∨ s.mouse.position.y + displacementY.toInt < 0

/-- The cursor moves or a button changes. -/
def Happens (s : Desktop) (buttons : UInt8) (displacementX displacementY : Int8) : Prop :=
  ¬ (Blocked s.screenSize.x s.mouse.position.x displacementX.toInt ∧
    Blocked s.screenSize.y s.mouse.position.y displacementY.toInt) ∨ buttons ≠ s.mouse.previousButtons

def HasTask (s : Desktop) (id : Nat) : Prop :=
  id ≠ 0 ∧ (s.findLayer id).isSome ∧ (s.layerTaskMap id).getD 0 ≠ 0

/-- The left button goes down on a window, but not on its title bar or close button. -/
def Presses (s : Desktop) (layer : Option LayerPtr) : Prop :=
  s.mouse.dragLayerId = 0 ∧ ∃ l, layer = some l ∧ (s.view l.number).draggable ∧
    (s.view l.number).getWindowRegion (s.mouse.position - (s.view l.number).pos) ∉ [.kTitleBar, .kCloseButton] ∧
    s.HasTask l.id

/-- There is a layer that the event is for, by the state in which the cursor has been moved: when the left button
goes down, the one under the cursor; else the active one.  A drag is for no layer. -/
def HasTarget (s : Desktop) (buttons : UInt8) : Prop :=
  match leftPressed s.mouse.previousButtons, leftPressed buttons with
  | false, true => s.Presses (s.findLayerByPosition s.mouse.position s.mouse.layerId)
  | true, false => s.HasTask s.activeLayer
  | _, _ => s.mouse.dragLayerId = 0 ∧ s.HasTask s.activeLayer

/-- The same of the event of the mouse. -/
def ForLayer (s : Desktop) (buttons : UInt8) (displacementX displacementY : Int8) : Prop :=
  (s.placeCursor (s.cursorAfter displacementX displacementY)).HasTarget buttons

/-- The position is that of the cursor, in the active layer, and the task is the one of that layer. -/
def Locates (s : Desktop) (task : Nat) (x y : Int) : Prop :=
  ∃ layer, s.findActiveLayerTask = some (layer, task) ∧ (s.view layer.number).pos + ⟨x, y⟩ = s.mouse.position

/-- The messages of an event, which leads from `s` to `s'`. -/
structure Truthful (s : Desktop) (buttons : UInt8) (target : Prop) (messages : List (Nat × Message)) (s' : Desktop) :
    Prop where
  moves : ∀ task x y dx dy b, (task, Message.kMouseMove x y dx dy b) ∈ messages →
    s'.Locates task x y ∧ (⟨dx, dy⟩ : Vector2D) = s'.mouse.position - s.mouse.position
  presses : ∀ task x y press button, (task, Message.kMouseButton x y press button) ∈ messages → s'.Locates task x y
  changed : target → buttonsOf messages = changedButtons s.mouse.previousButtons buttons
  unsent : ¬ target → buttonsOf messages = []

end Desktop

/-! ## Buttons -/

theorem changedButtons_eq (previousButtons buttons : UInt8) :
    (List.range 8).filter (fun i => (previousButtons ^^^ buttons).toNat.testBit i) =
      (List.range 8).filter fun i => previousButtons.toNat.testBit i != buttons.toNat.testBit i := by
  apply List.filter_congr
  intro i _
  rw [UInt8.toNat_xor, Nat.testBit_xor]

theorem changedButtons_eq_nil {previousButtons buttons : UInt8} :
    changedButtons previousButtons buttons = [] ↔ buttons = previousButtons := by
  unfold changedButtons
  rw [List.map_eq_nil_iff, List.filter_eq_nil_iff]
  constructor
  · intro h
    apply UInt8.toNat_inj.mp
    apply Nat.eq_of_testBit_eq
    intro i
    by_cases hi : i < 8
    · have hsame := h i (List.mem_range.mpr hi)
      simp only [bne_iff_ne, ne_eq, not_not] at hsame
      exact hsame.symm
    · -- there are no more bits in a byte
      have hpow : 2 ^ 8 ≤ 2 ^ i := Nat.pow_le_pow_right (by decide) (Nat.le_of_not_lt hi)
      rw [Nat.testBit_lt_two_pow (Nat.lt_of_lt_of_le buttons.toNat_lt hpow),
        Nat.testBit_lt_two_pow (Nat.lt_of_lt_of_le previousButtons.toNat_lt hpow)]
  · rintro rfl i _
    simp

/-! ## Layers -/

namespace LayerSystem

variable {s s' : LayerSystem} {id : Nat} {index : Int}

theorem setIndex_keeps (hrun : s.setIndex id index = some s') :
    s'.layers = s.layers ∧ s'.activeLayer = s.activeLayer := by
  unfold LayerSystem.setIndex at hrun
  split at hrun
  · cases hrun
    unfold hide
    split <;> exact ⟨rfl, rfl⟩
  · dsimp only at hrun
    split at hrun
    · cases hrun
    · split at hrun
      · split at hrun
        · cases hrun
        · cases hrun
          exact ⟨rfl, rfl⟩
      · cases hrun
        exact ⟨rfl, rfl⟩

theorem activate_keeps (hrun : s.activate id = some s') : s'.layers = s.layers ∧ s'.activeLayer = id := by
  unfold LayerSystem.activate at hrun
  split at hrun
  · rename_i hsame
    cases hrun
    exact ⟨rfl, hsame⟩
  obtain ⟨s₁, hoff, hrun⟩ := Option.bind_eq_some_iff.mp hrun
  have hlayers : s₁.layers = s.layers := by
    unfold deactivate at hoff
    split at hoff
    · obtain ⟨layer, -, rfl⟩ := Option.map_eq_some_iff.mp hoff
      rfl
    · cases hoff
      rfl
  dsimp only at hrun
  split at hrun
  · obtain ⟨layer, -, hrun⟩ := Option.bind_eq_some_iff.mp hrun
    obtain ⟨s₂, hzero, hrun⟩ := Option.bind_eq_some_iff.mp hrun
    have hfirst := setIndex_keeps hzero
    have hsecond := setIndex_keeps hrun
    exact ⟨hsecond.1.trans (hfirst.1.trans hlayers), hsecond.2.trans hfirst.2⟩
  · cases hrun
    exact ⟨hlayers, rfl⟩

end LayerSystem

namespace Desktop

variable {s s' : Desktop} {buttons : UInt8} {displacementX displacementY : Int8} {posdiff : Vector2D}

/-- An operation that leaves the cursor, the buttons and the windows with their tasks. -/
structure Keeps (s s' : Desktop) : Prop where
  layers : s'.layers = s.layers
  layerTaskMap : s'.layerTaskMap = s.layerTaskMap
  screenSize : s'.screenSize = s.screenSize
  position : s'.mouse.position = s.mouse.position
  previousButtons : s'.mouse.previousButtons = s.mouse.previousButtons

theorem activate_keeps (id : Nat) :
    Yields (fun _ => False) (fun s' => s.Keeps s' ∧ s'.mouse = s.mouse ∧ s'.activeLayer = id) (s.activate id) := by
  unfold Desktop.activate
  cases hrun : s.toLayerSystem.activate id with
  | none => exact fun h => h
  | some layers =>
    have hkeeps := LayerSystem.activate_keeps hrun
    exact ⟨⟨hkeeps.1, rfl, rfl, rfl, rfl⟩, rfl, hkeeps.2⟩

theorem Keeps.hasTask (h : s.Keeps s') (id : Nat) : s'.HasTask id ↔ s.HasTask id := by
  unfold HasTask
  rw [h.layerTaskMap, LayerSystem.findLayer_congr h.layers]

/-- Whether `SendMouseMessage` finds a layer and a task. -/
theorem hasTask_iff : s.HasTask s.activeLayer ↔
    ∃ layer task, s.findActiveLayerTask = some (layer, task) ∧ task ≠ 0 := by
  unfold HasTask findActiveLayerTask
  by_cases hzero : s.activeLayer = 0
  · simp [hzero]
  · cases hlayer : s.findLayer s.activeLayer with
    | none => simp [hzero]
    | some layer => simp [hzero]

/-- After the buttons have been handled, `SendMouseMessage` is called and finds a task. -/
def Sends (s : Desktop) (closeLayerId : Nat) : Prop :=
  s.mouse.dragLayerId = 0 ∧ closeLayerId = 0 ∧ s.HasTask s.activeLayer

theorem not_hasTask_zero : ¬ s.HasTask 0 := fun h => h.1 rfl

theorem Presses.region {l : LayerPtr} (h : s.Presses (some l)) :
    (s.view l.number).getWindowRegion (s.mouse.position - (s.view l.number).pos) ≠ .kTitleBar ∧
      (s.view l.number).getWindowRegion (s.mouse.position - (s.view l.number).pos) ≠ .kCloseButton := by
  obtain ⟨-, l', hl', -, hregion, -⟩ := h
  cases hl'
  simpa using hregion

theorem press_sends (layer : Option LayerPtr) :
    Yields (fun _ => False) (fun r => s.Keeps r.2 ∧ (r.2.Sends r.1 ↔ s.Presses layer)) (s.press layer) := by
  -- nothing is active, and nothing is sent
  have hnone : ¬ s.Presses layer → Yields (fun _ => False)
      (fun r => s.Keeps r.2 ∧ (r.2.Sends r.1 ↔ s.Presses layer)) ((s.activate 0).map fun s => (0, s)) := by
    intro hnot
    refine (activate_keeps 0).map fun s' hs' => ⟨hs'.1, iff_of_false ?_ hnot⟩
    rintro ⟨-, -, htask⟩
    rw [hs'.2.2] at htask
    exact not_hasTask_zero htask
  cases layer with
  | none => exact hnone fun ⟨_, l, hl, _⟩ => nomatch hl
  | some l =>
    unfold Desktop.press
    dsimp only
    split
    · rename_i hdraggable
      split
      · rename_i hregion
        -- a window without an id is not dragged, and has no task
        refine (activate_keeps l.id).map fun s' hs' => ?_
        refine ⟨⟨hs'.1.layers, hs'.1.layerTaskMap, hs'.1.screenSize, hs'.1.position, hs'.1.previousButtons⟩, ?_⟩
        apply iff_of_false
        · rintro ⟨hdrag, -, htask⟩
          rw [hs'.2.2] at htask
          rw [hs'.2.1] at hdrag
          exact htask.1 hdrag
        · exact fun h => h.region.1 hregion
      · rename_i hregion
        refine (activate_keeps l.id).map fun s' hs' => ⟨hs'.1, ?_⟩
        apply iff_of_false
        · rintro ⟨-, hclose, htask⟩
          rw [hs'.2.2] at htask
          exact htask.1 hclose
        · exact fun h => h.region.2 hregion
      · rename_i htitle hclose
        refine (activate_keeps l.id).map fun s' hs' => ⟨hs'.1, ?_⟩
        unfold Sends Presses
        rw [hs'.2.1, hs'.2.2, hs'.1.hasTask]
        constructor
        · rintro ⟨hdrag, -, htask⟩
          refine ⟨hdrag, l, rfl, hdraggable, ?_, htask⟩
          simp only [List.mem_cons, List.not_mem_nil, or_false, not_or]
          exact ⟨htitle, hclose⟩
        · rintro ⟨hdrag, l', hl', -, -, htask⟩
          cases hl'
          exact ⟨hdrag, rfl, htask⟩
    · rename_i hfixed
      apply hnone
      rintro ⟨-, l', hl', hdraggable, -⟩
      cases hl'
      exact hfixed hdraggable

theorem onLeftButton_sends (buttons : UInt8) (posdiff : Vector2D) :
    Yields (fun _ => False) (fun r => s.Keeps r.2 ∧ (r.2.Sends r.1 ↔ s.HasTarget buttons))
      (s.onLeftButton buttons posdiff) := by
  have hsame : s.Keeps s := ⟨rfl, rfl, rfl, rfl, rfl⟩
  unfold Desktop.onLeftButton HasTarget
  cases leftPressed s.mouse.previousButtons with
  | false =>
    cases leftPressed buttons with
    | true =>
      refine (press_sends _).map fun r hr => ⟨?_, hr.2⟩
      exact ⟨hr.1.layers, hr.1.layerTaskMap, hr.1.screenSize, hr.1.position, hr.1.previousButtons⟩
    | false =>
      refine Yields.pure ⟨hsame, ?_⟩
      unfold Sends
      simp
  | true =>
    cases leftPressed buttons with
    | true =>
      dsimp only
      unfold Desktop.onDrag
      split
      · rename_i hdrag
        unfold Desktop.moveRelative
        cases s.findLayer s.mouse.dragLayerId with
        | none => exact fun h => h
        | some layer =>
          refine Yields.pure ⟨⟨rfl, rfl, rfl, rfl, rfl⟩, ?_⟩
          -- the drag goes on
          apply iff_of_false
          · exact fun h => Nat.ne_of_gt hdrag h.1
          · exact fun h => Nat.ne_of_gt hdrag h.1
      · refine Yields.pure ⟨hsame, ?_⟩
        unfold Sends
        simp
    | false =>
      refine Yields.pure ⟨⟨rfl, rfl, rfl, rfl, rfl⟩, ?_⟩
      constructor
      · exact fun h => h.2.2
      · exact fun h => ⟨rfl, rfl, h⟩

/-! ## Messages -/

/-- The position that the messages are made of. -/
def reported (s : Desktop) (displacementX displacementY : Int8) : Vector2D :=
  (s.mouse.position + ⟨displacementX.toInt, displacementY.toInt⟩).elementMin (s.screenSize + ⟨-1, -1⟩)

theorem elementMax_reported : (s.reported displacementX displacementY).elementMax ⟨0, 0⟩ =
    s.cursorAfter displacementX displacementY := by
  unfold reported cursorAfter Vector2D.elementMax Vector2D.elementMin
  simp only [Vector2D.add_x, Vector2D.add_y, Vector2D.mk.injEq]
  omega

theorem reported_eq_iff (h : s.OnScreen) :
    s.reported displacementX displacementY = s.cursorAfter displacementX displacementY ↔
      ¬ s.PastEdge displacementX displacementY := by
  unfold OnScreen Rectangle.Contains at h
  unfold reported cursorAfter PastEdge Vector2D.elementMin
  simp only [Vector2D.add_x, Vector2D.add_y, Vector2D.mk.injEq] at h ⊢
  omega

theorem cursorAfter_eq_iff (h : s.OnScreen) :
    s.cursorAfter displacementX displacementY = s.mouse.position ↔
      Blocked s.screenSize.x s.mouse.position.x displacementX.toInt ∧
        Blocked s.screenSize.y s.mouse.position.y displacementY.toInt := by
  unfold OnScreen Rectangle.Contains at h
  unfold cursorAfter Blocked
  rw [Vector2D.ext_iff]
  dsimp only at h ⊢
  omega

theorem locates_iff {layer : LayerPtr} {task task' : Nat} {newpos : Vector2D}
    (hfind : s.findActiveLayerTask = some (layer, task)) :
    s.Locates task' (newpos - (s.view layer.number).pos).x (newpos - (s.view layer.number).pos).y ↔
      task' = task ∧ newpos = s.mouse.position := by
  have hsum : (s.view layer.number).pos +
      ⟨(newpos - (s.view layer.number).pos).x, (newpos - (s.view layer.number).pos).y⟩ = newpos := by
    ext
    · simp
    · simp
  unfold Locates
  constructor
  · rintro ⟨layer', hfind', hpos⟩
    cases hfind.symm.trans hfind'
    rw [hsum] at hpos
    exact ⟨rfl, hpos⟩
  · rintro ⟨rfl, hpos⟩
    exact ⟨layer, hfind, hsum.trans hpos⟩

theorem mem_sendMouseMessage {layer : LayerPtr} {task task' : Nat} {newpos : Vector2D} {previousButtons : UInt8}
    {message : Message} (hfind : s.findActiveLayerTask = some (layer, task)) (htask : task ≠ 0) :
    (task', message) ∈ s.sendMouseMessage newpos posdiff buttons previousButtons ↔ task' = task ∧
      (posdiff ≠ ⟨0, 0⟩ ∧ message = .kMouseMove (newpos - (s.view layer.number).pos).x
          (newpos - (s.view layer.number).pos).y posdiff.x posdiff.y buttons ∨
        ∃ i : Nat, (i : Int) ∈ changedButtons previousButtons buttons ∧
          message = .kMouseButton (newpos - (s.view layer.number).pos).x (newpos - (s.view layer.number).pos).y
            (if buttons.toNat.testBit i then 1 else 0) i) := by
  have hdiff : posdiff ≠ ⟨0, 0⟩ ↔ posdiff.x ≠ 0 ∨ posdiff.y ≠ 0 := by
    rw [ne_eq, Vector2D.ext_iff]
    dsimp only
    omega
  unfold sendMouseMessage changedButtons
  rw [hfind, ← changedButtons_eq, hdiff]
  dsimp only
  rw [if_neg htask, List.mem_map]
  constructor
  · rintro ⟨message', hmem, heq⟩
    cases heq
    refine ⟨rfl, ?_⟩
    rcases List.mem_append.mp hmem with hmem | hmem
    · split at hmem
      · rename_i hmoved
        exact .inl ⟨hmoved, List.mem_singleton.mp hmem⟩
      · cases hmem
    · obtain ⟨i, hi, rfl⟩ := List.mem_map.mp hmem
      exact .inr ⟨i, List.mem_map_of_mem hi, rfl⟩
  · rintro ⟨rfl, h⟩
    refine ⟨message, ?_, rfl⟩
    rw [List.mem_append]
    rcases h with ⟨hmoved, rfl⟩ | ⟨i, hi, rfl⟩
    · left
      rw [if_pos hmoved]
      exact List.mem_singleton_self _
    · right
      obtain ⟨j, hj, heq⟩ := List.mem_map.mp hi
      rw [Int.ofNat_inj.mp heq] at hj
      exact List.mem_map_of_mem hj

theorem buttonsOf_sendMouseMessage {layer : LayerPtr} {task : Nat} {newpos : Vector2D} {previousButtons : UInt8}
    (hfind : s.findActiveLayerTask = some (layer, task)) (htask : task ≠ 0) :
    buttonsOf (s.sendMouseMessage newpos posdiff buttons previousButtons) = changedButtons previousButtons buttons := by
  unfold sendMouseMessage buttonsOf changedButtons
  rw [hfind, ← changedButtons_eq]
  dsimp only
  rw [if_neg htask, List.filterMap_map, List.filterMap_append, List.filterMap_map]
  -- `kMouseMove` is not about a button
  split
  · exact congrFun List.filterMap_eq_map _
  · exact congrFun List.filterMap_eq_map _

/-- What `SendMouseMessage` sends to a task tells the position that it is given. -/
theorem truthful_sendMouseMessage {layer : LayerPtr} {task : Nat} {newpos : Vector2D}
    (hfind : s'.findActiveLayerTask = some (layer, task)) (htask : task ≠ 0) {target : Prop} (htarget : target) :
    Truthful s buttons target
      (s'.sendMouseMessage newpos (s'.mouse.position - s.mouse.position) buttons s.mouse.previousButtons) s' ↔
      (newpos = s'.mouse.position ∨ s'.mouse.position = s.mouse.position ∧ buttons = s.mouse.previousButtons) := by
  have hmoved : s'.mouse.position - s.mouse.position = ⟨0, 0⟩ ↔ s'.mouse.position = s.mouse.position := by
    rw [Vector2D.ext_iff, Vector2D.ext_iff]
    simp only [Vector2D.sub_x, Vector2D.sub_y]
    omega
  constructor
  · intro h
    by_cases hposition : s'.mouse.position = s.mouse.position
    · by_cases hbuttons : buttons = s.mouse.previousButtons
      · exact .inr ⟨hposition, hbuttons⟩
      · -- a button message has been sent
        obtain ⟨button, hbutton⟩ := List.exists_mem_of_ne_nil _ (mt changedButtons_eq_nil.mp hbuttons)
        obtain ⟨i, -, rfl⟩ := List.mem_map.mp hbutton
        have hlocates := h.presses task _ _ _ _
          ((mem_sendMouseMessage hfind htask).mpr ⟨rfl, .inr ⟨i, hbutton, rfl⟩⟩)
        exact .inl ((locates_iff hfind).mp hlocates).2
    · have hlocates := (h.moves task _ _ _ _ _
        ((mem_sendMouseMessage hfind htask).mpr ⟨rfl, .inl ⟨mt hmoved.mp hposition, rfl⟩⟩)).1
      exact .inl ((locates_iff hfind).mp hlocates).2
  · intro h
    refine ⟨?_, ?_, fun _ => buttonsOf_sendMouseMessage hfind htask, fun hnot => absurd htarget hnot⟩
    · intro task' x y dx dy b hmem
      obtain ⟨rfl, ⟨hdiff, hmessage⟩ | ⟨i, -, hmessage⟩⟩ := (mem_sendMouseMessage hfind htask).mp hmem
      · cases hmessage
        have hpos := h.resolve_right fun hstay => hdiff (hmoved.mpr hstay.1)
        exact ⟨(locates_iff hfind).mpr ⟨rfl, hpos⟩, rfl⟩
      · cases hmessage
    · intro task' x y press button hmem
      obtain ⟨rfl, ⟨-, hmessage⟩ | ⟨i, hi, hmessage⟩⟩ := (mem_sendMouseMessage hfind htask).mp hmem
      · cases hmessage
      · cases hmessage
        have hpos := h.resolve_right fun hstay => by
          rw [changedButtons_eq_nil.mpr hstay.2] at hi
          exact List.not_mem_nil hi
        exact (locates_iff hfind).mpr ⟨rfl, hpos⟩

theorem truthful_of_no_messages {target : Prop} {messages : List (Nat × Message)}
    (h : ∀ task message, (task, message) ∈ messages → ∃ layerId, message = .kWindowClose layerId)
    (htarget : ¬ target) : Truthful s buttons target messages s' := by
  refine ⟨?_, ?_, fun htrue => absurd htrue htarget, fun _ => ?_⟩
  · intro task x y dx dy b hmem
    obtain ⟨layerId, hmessage⟩ := h _ _ hmem
    cases hmessage
  · intro task x y press button hmem
    obtain ⟨layerId, hmessage⟩ := h _ _ hmem
    cases hmessage
  · unfold buttonsOf
    rw [List.filterMap_eq_nil_iff]
    rintro ⟨task, message⟩ hmem
    obtain ⟨layerId, rfl⟩ := h _ _ hmem
    rfl

theorem sendMouseMessage_nil {newpos : Vector2D} {previousButtons : UInt8} (h : ¬ s.HasTask s.activeLayer) :
    s.sendMouseMessage newpos posdiff buttons previousButtons = [] := by
  rw [hasTask_iff] at h
  unfold sendMouseMessage
  split
  · rfl
  · rename_i layer task hfind
    have htask : task = 0 := by
      by_contra htask
      exact h ⟨layer, task, hfind, htask⟩
    exact if_pos htask

theorem mem_sendCloseMessage {task : Nat} {message : Message} (h : (task, message) ∈ s.sendCloseMessage) :
    ∃ layerId, message = .kWindowClose layerId := by
  unfold sendCloseMessage at h
  split at h
  · cases h
  · rename_i layer _ _
    split at h
    · cases h
    · cases List.mem_singleton.mp h
      exact ⟨layer.id, rfl⟩

/-! ## Events -/

/-- The messages of the last part of the event. -/
def lastPart (s : Desktop) (closeLayerId : Nat) (newpos posdiff : Vector2D) (buttons previousButtons : UInt8) :
    List (Nat × Message) :=
  if s.mouse.dragLayerId = 0 then
    if closeLayerId = 0 then s.sendMouseMessage newpos posdiff buttons previousButtons else s.sendCloseMessage
  else []

/-- Of an event that is for no layer, at most a request to close a window is sent. -/
theorem lastPart_unsent {closeLayerId task : Nat} {newpos : Vector2D} {previousButtons : UInt8} {message : Message}
    (h : ¬ s.Sends closeLayerId)
    (hmem : (task, message) ∈ s.lastPart closeLayerId newpos posdiff buttons previousButtons) :
    ∃ layerId, message = .kWindowClose layerId := by
  unfold lastPart at hmem
  split at hmem
  · rename_i hdrag
    split at hmem
    · rename_i hclose
      rw [sendMouseMessage_nil fun htask => h ⟨hdrag, hclose, htask⟩] at hmem
      cases hmem
    · exact mem_sendCloseMessage hmem
  · cases hmem

/-- The parts of `OnInterrupt`. -/
theorem onInterrupt_parts (buttons : UInt8) (displacementX displacementY : Int8) :
    Yields (fun _ => False) (fun r => ∃ closeLayerId s',
        (s.placeCursor (s.cursorAfter displacementX displacementY)).Keeps s' ∧
        (s'.Sends closeLayerId ↔ s.ForLayer buttons displacementX displacementY) ∧
        r = (s'.lastPart closeLayerId (s.reported displacementX displacementY)
          (s.cursorAfter displacementX displacementY - s.mouse.position) buttons s'.mouse.previousButtons,
          s'.setMouse { s'.mouse with previousButtons := buttons }))
      (s.onInterrupt buttons displacementX displacementY) := by
  have hcursor : (Vector2D.elementMin (s.mouse.position + ⟨displacementX.toInt, displacementY.toInt⟩)
      (s.screenSize + ⟨-1, -1⟩)).elementMax ⟨0, 0⟩ = s.cursorAfter displacementX displacementY := elementMax_reported
  unfold Desktop.onInterrupt ForLayer
  dsimp only
  rw [hcursor]
  generalize s.cursorAfter displacementX displacementY = position
  have hmove : Yields (fun _ => False) (fun s' => s' = s.placeCursor position)
      ((s.setMouse { s.mouse with position := position }).move s.mouse.layerId position) := by
    unfold Desktop.move Desktop.placeCursor
    cases hlayer : s.findLayer s.mouse.layerId with
    | none =>
      have hgone : (s.setMouse { s.mouse with position := position }).findLayer s.mouse.layerId = none := hlayer
      rw [hgone]
      exact fun h => h
    | some layer =>
      have hthere : (s.setMouse { s.mouse with position := position }).findLayer s.mouse.layerId = some layer := hlayer
      rw [hthere]
      rfl
  refine hmove.bind fun s₁ hs₁ => ?_
  subst hs₁
  refine (onLeftButton_sends buttons _).bind fun r hr => Yields.pure ?_
  exact ⟨r.1, r.2, hr.1, hr.2, rfl⟩

theorem placeCursor_mouse (position : Vector2D) :
    (s.placeCursor position).mouse = { s.mouse with position := position } ∧
      (s.placeCursor position).screenSize = s.screenSize := by
  unfold placeCursor
  dsimp only
  split <;> exact ⟨rfl, rfl⟩

theorem cursorAfter_onScreen (h : s.OnScreen) : Rectangle.Contains ⟨⟨0, 0⟩, s.screenSize⟩
    (s.cursorAfter displacementX displacementY) := by
  unfold OnScreen Rectangle.Contains at *
  unfold cursorAfter
  dsimp only at h ⊢
  omega

/-- One event. -/
theorem OnScreen.onInterrupt (h : s.OnScreen) {messages : List (Nat × Message)}
    (hrun : s.onInterrupt buttons displacementX displacementY = .ok (messages, s')) :
    s'.OnScreen ∧ s'.mouse.previousButtons = buttons ∧
      (Truthful s buttons (s.ForLayer buttons displacementX displacementY) messages s' ↔
        ¬ (s.PastEdge displacementX displacementY ∧ s.ForLayer buttons displacementX displacementY ∧
          s.Happens buttons displacementX displacementY)) := by
  obtain ⟨closeLayerId, s₂, hkeeps, hsends, heq⟩ := (onInterrupt_parts buttons displacementX displacementY).of_ok hrun
  obtain ⟨hmouse, hscreen⟩ := placeCursor_mouse (s := s) (s.cursorAfter displacementX displacementY)
  have hposition : s₂.mouse.position = s.cursorAfter displacementX displacementY := by
    rw [hkeeps.position, hmouse]
  have hprevious : s₂.mouse.previousButtons = s.mouse.previousButtons := by
    rw [hkeeps.previousButtons, hmouse]
  cases heq
  refine ⟨?_, rfl, ?_⟩
  · show Rectangle.Contains ⟨⟨0, 0⟩, s₂.screenSize⟩ s₂.mouse.position
    rw [hkeeps.screenSize, hscreen, hposition]
    exact cursorAfter_onScreen h
  by_cases htarget : s.ForLayer buttons displacementX displacementY
  · obtain ⟨hdrag, hclose, htask⟩ := hsends.mpr htarget
    obtain ⟨layer, task, hfind, htask⟩ := hasTask_iff.mp htask
    have hlast : s₂.lastPart closeLayerId (s.reported displacementX displacementY)
        (s.cursorAfter displacementX displacementY - s.mouse.position) buttons s₂.mouse.previousButtons =
        (s₂.setMouse { s₂.mouse with previousButtons := buttons }).sendMouseMessage
          (s.reported displacementX displacementY) (s₂.mouse.position - s.mouse.position) buttons
          s.mouse.previousButtons := by
      rw [lastPart, if_pos hdrag, if_pos hclose, hposition, hprevious]
      rfl
    have hactive : (s₂.setMouse { s₂.mouse with previousButtons := buttons }).findActiveLayerTask =
        some (layer, task) := hfind
    rw [hlast]
    refine (truthful_sendMouseMessage hactive htask htarget).trans ?_
    show s.reported displacementX displacementY = s₂.mouse.position ∨ s₂.mouse.position = s.mouse.position ∧ _ ↔ _
    rw [hposition, reported_eq_iff h, cursorAfter_eq_iff h]
    have hhappens : ¬ s.Happens buttons displacementX displacementY ↔
        (Blocked s.screenSize.x s.mouse.position.x displacementX.toInt ∧
          Blocked s.screenSize.y s.mouse.position.y displacementY.toInt) ∧ buttons = s.mouse.previousButtons := by
      unfold Happens
      rw [ne_eq, ← not_and_or, not_not]
    rw [← hhappens, ← not_and_or, and_iff_right htarget]
  · apply iff_of_true
    · exact truthful_of_no_messages (fun _ _ => lastPart_unsent (mt hsends.mp htarget)) htarget
    · exact fun hpast => htarget hpast.2.1


end Desktop

/-! ## Runs -/

open Desktop

/-- An event of the mouse, or anything else that happens to the layers, their windows and their tasks. -/
inductive MouseStep (s s' : Desktop) : Prop
  | mouse (buttons : UInt8) (displacementX displacementY : Int8) (messages : List (Nat × Message))
      (h : s.onInterrupt buttons displacementX displacementY = .ok (messages, s'))
  | other (hmouse : s'.mouse = s.mouse) (hscreen : s'.screenSize = s.screenSize)

/-- **Which mouse messages are true.**  In every run that begins with the cursor on the screen, it stays there; and
the messages of the next event are true unless the event has a target and goes over the left or the upper edge,
where it moves the cursor along that edge or changes a button. -/
theorem mouse_messages_truthful_iff {s : Desktop} (h : Reachable OnScreen MouseStep s) :
    s.OnScreen ∧ ∀ buttons displacementX displacementY messages s',
      s.onInterrupt buttons displacementX displacementY = .ok (messages, s') →
        s'.OnScreen ∧ s'.mouse.previousButtons = buttons ∧
          (Truthful s buttons (s.ForLayer buttons displacementX displacementY) messages s' ↔
            ¬ (s.PastEdge displacementX displacementY ∧ s.ForLayer buttons displacementX displacementY ∧
              s.Happens buttons displacementX displacementY)) := by
  have hscreen : s.OnScreen := by
    apply h.invariant
    · exact fun _ hstart => hstart
    · intro s s' hs hstep
      cases hstep with
      | mouse _ _ _ _ hrun => exact (hs.onInterrupt hrun).1
      | other hmouse hscreen =>
        unfold OnScreen at *
        rw [hmouse, hscreen]
        exact hs
  exact ⟨hscreen, fun _ _ _ _ _ hrun => hscreen.onInterrupt hrun⟩

/-- A window of 160x68 pixels is opened under the mouse. -/
def Desktop.oneWindow : Desktop :=
  match Desktop.empty.openWindow ⟨160, 68⟩ ⟨80, 90⟩ 5 with
  | .ok (_, s) => s
  | .error _ => Desktop.empty

theorem Desktop.oneWindow_reachable : Reachable OnScreen MouseStep Desktop.oneWindow := by
  have hstart : Desktop.empty.OnScreen := by
    unfold OnScreen
    decide
  exact (Reachable.start hstart).next (.other rfl rfl)

theorem mouse_messages_truthful_move : ∃ s', Desktop.oneWindow.onInterrupt 0 (-5) 3 =
      .ok ([(5, .kMouseMove 15 13 (-5) 3 0)], s') ∧
    Truthful Desktop.oneWindow 0 (Desktop.oneWindow.ForLayer 0 (-5) 3) [(5, .kMouseMove 15 13 (-5) 3 0)] s' := by
  refine ⟨_, rfl, ?_⟩
  refine ((mouse_messages_truthful_iff Desktop.oneWindow_reachable).2 0 (-5) 3 _ _ rfl).2.2.mpr ?_
  have hinside : ¬ Desktop.oneWindow.PastEdge (-5) 3 := by
    unfold PastEdge
    decide
  exact fun h => hinside h.1

/-- The cursor stops at the left edge, and the window is told that it is 20 pixels to the left of it. -/
theorem mouse_message_past_edge : ∃ s', Reachable OnScreen MouseStep Desktop.oneWindow ∧
    Desktop.oneWindow.onInterrupt 0 (-120) 0 = .ok ([(5, .kMouseMove (-100) 10 (-100) 0 0)], s') ∧
    s'.mouse.position = ⟨0, 100⟩ ∧ (s'.view 2).pos = ⟨80, 90⟩ ∧
    ¬ Truthful Desktop.oneWindow 0 (Desktop.oneWindow.ForLayer 0 (-120) 0)
      [(5, .kMouseMove (-100) 10 (-100) 0 0)] s' := by
  refine ⟨_, Desktop.oneWindow_reachable, rfl, rfl, rfl, ?_⟩
  intro h
  obtain ⟨⟨layer, hfind, hpos⟩, -⟩ := h.moves 5 (-100) 10 (-100) 0 0 List.mem_cons_self
  cases hfind
  revert hpos
  decide

end MikanSaos
