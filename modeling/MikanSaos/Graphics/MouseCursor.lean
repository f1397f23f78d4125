import MikanSaos.Graphics.ActiveLayer
import MikanSaos.Graphics.Geometry
import MikanSaos.Task.Message

/-!
# MouseCursor — the mouse and the windows that are opened, dragged and closed

Left out is what changes neither the layers nor the cursor: drawing, the click handler of the desktop button,
which redraws, and the messages that `Activate` sends.  Coordinates are unbounded.
-/

namespace MikanSaos

def kCloseButtonWidth : Int := 16
def kCloseButtonHeight : Int := 14
def kTopLeftMargin : Vector2D := ⟨2, 27⟩
def kBottomRightMargin : Vector2D := ⟨2, 2⟩

def kTaskBarHeight : Int := 35
def kInfoBallRadius : Int := 35

/-- The size of the window of a terminal of 60 columns and 18 rows. -/
def terminalSize : Vector2D := ⟨60 * 8 + 8, 18 * 16 + 8⟩ + kTopLeftMargin + kBottomRightMargin

inductive WindowRegion where
  | kTitleBar | kCloseButton | kBorder | kOther
  deriving DecidableEq, Repr

/-- The fields of a layer, with those of its window that the mouse looks at. -/
structure WindowView where
  pos : Vector2D
  size : Vector2D
  draggable : Bool
  /-- The window is a `ToplevelWindow`. -/
  toplevel : Bool

def WindowView.getWindowRegion (view : WindowView) (pos : Vector2D) : WindowRegion :=
  if !view.toplevel then .kOther
  else if pos.x < 2 ∨ view.size.x - 2 ≤ pos.x ∨ pos.y < 2 ∨ view.size.y - 2 ≤ pos.y then .kBorder
  else if pos.y < kTopLeftMargin.y then
    if view.size.x - 5 - kCloseButtonWidth ≤ pos.x ∧ pos.x < view.size.x - 5 ∧
        5 ≤ pos.y ∧ pos.y < 5 + kCloseButtonHeight then .kCloseButton
    else .kTitleBar
  else .kOther

structure MouseCursor where
  layerId : Nat
  position : Vector2D := ⟨0, 0⟩
  dragLayerId : Nat := 0
  previousButtons : UInt8 := 0
  previousMouseDownLayer : Option LayerPtr := none

/-- The layers with what is shown in them, by their numbers, and the mouse. -/
structure Desktop extends LayerSystem where
  view : Nat → WindowView
  layerTaskMap : Nat → Option Nat
  screenSize : Vector2D
  mouse : MouseCursor

/-- `move id`: `Move` or `MoveRelative` has found no layer with the id and uses the null pointer.  `stack`: an
operation on the stack has used a null pointer or left a vector. -/
inductive LayerFault where
  | move (id : Nat)
  | stack
  deriving DecidableEq

namespace Desktop

def setMouse (s : Desktop) (mouse : MouseCursor) : Desktop := { s with mouse := mouse }

def setPos (s : Desktop) (layer : LayerPtr) (pos : Vector2D) : Desktop :=
  { s with view := Function.update s.view layer.number { s.view layer.number with pos := pos } }

def withLayers (s : Desktop) : Option LayerSystem → Except LayerFault Desktop
  | none => .error .stack
  | some layers => .ok { s with toLayerSystem := layers }

def activate (s : Desktop) (layerId : Nat) : Except LayerFault Desktop :=
  s.withLayers (s.toLayerSystem.activate layerId)

def setIndex (s : Desktop) (id : Nat) (index : Int) : Except LayerFault Desktop :=
  s.withLayers (s.toLayerSystem.setIndex id index)

/-- `NewLayer`, with the setters that are called on the new layer. -/
def newLayer (s : Desktop) (view : WindowView) : LayerPtr × Desktop :=
  let layers := s.toLayerSystem.newLayer
  (⟨s.made, layers.lastId⟩,
    { s with toLayerSystem := layers, view := Function.update s.view s.made view })

def move (s : Desktop) (id : Nat) (pos : Vector2D) : Except LayerFault Desktop :=
  match s.findLayer id with
  | none => .error (.move id)
  | some layer => .ok (s.setPos layer pos)

def moveRelative (s : Desktop) (id : Nat) (posDelta : Vector2D) : Except LayerFault Desktop :=
  match s.findLayer id with
  | none => .error (.move id)
  | some layer => .ok (s.setPos layer ((s.view layer.number).pos + posDelta))

/-- The highest layer at `pos`. -/
def findLayerByPosition (s : Desktop) (pos : Vector2D) (excludeId : Nat) : Option LayerPtr :=
  s.layerStack.reverse.find? fun layer =>
    layer.id ≠ excludeId ∧ Rectangle.Contains ⟨(s.view layer.number).pos, (s.view layer.number).size⟩ pos

/-! ## Messages -/

/-- The active layer, and the task of its window, or 0. -/
def findActiveLayerTask (s : Desktop) : Option (LayerPtr × Nat) :=
  if s.activeLayer = 0 then none
  else (s.findLayer s.activeLayer).map fun layer => (layer, (s.layerTaskMap s.activeLayer).getD 0)

/-- The task and the messages that `SendMouseMessage` sends to it. -/
def sendMouseMessage (s : Desktop) (newpos posdiff : Vector2D) (buttons previousButtons : UInt8) :
    List (Nat × Message) :=
  match s.findActiveLayerTask with
  | none => []
  | some (layer, taskId) =>
    if taskId = 0 then []
    else
      let relpos := newpos - (s.view layer.number).pos
      let moved := if posdiff.x ≠ 0 ∨ posdiff.y ≠ 0 then
        [Message.kMouseMove relpos.x relpos.y posdiff.x posdiff.y buttons] else []
      let changed := (List.range 8).filter fun i => (previousButtons ^^^ buttons).toNat.testBit i
      (moved ++ changed.map fun i =>
        Message.kMouseButton relpos.x relpos.y (if buttons.toNat.testBit i then 1 else 0) i).map (taskId, ·)

def sendCloseMessage (s : Desktop) : List (Nat × Message) :=
  match s.findActiveLayerTask with
  | none => []
  | some (layer, taskId) => if taskId = 0 then [] else [(taskId, .kWindowClose layer.id)]

/-! ## Buttons -/

/-- The layer under the mouse is activated, and dragged from now on or to be closed: the id of the layer to
close, or 0. -/
def press (s : Desktop) : Option LayerPtr → Except LayerFault (Nat × Desktop)
  | none => (s.activate 0).map fun s => (0, s)
  | some layer =>
    let view := s.view layer.number
    if view.draggable then
      match view.getWindowRegion (s.mouse.position - view.pos) with
      | .kTitleBar =>
        ((s.setMouse { s.mouse with dragLayerId := layer.id }).activate layer.id).map fun s => (0, s)
      | .kCloseButton => (s.activate layer.id).map fun s => (layer.id, s)
      | _ => (s.activate layer.id).map fun s => (0, s)
    else (s.activate 0).map fun s => (0, s)

/-- The left button goes down. -/
def leftButtonDown (s : Desktop) : Except LayerFault (Nat × Desktop) :=
  let layer := s.findLayerByPosition s.mouse.position s.mouse.layerId
  (s.press layer).map fun (closeLayerId, s) =>
    (closeLayerId, s.setMouse { s.mouse with previousMouseDownLayer := layer })

/-- The mouse moves while the left button is down. -/
def onDrag (s : Desktop) (posdiff : Vector2D) : Except LayerFault Desktop :=
  if s.mouse.dragLayerId > 0 then s.moveRelative s.mouse.dragLayerId posdiff else .ok s

/-- The left button goes up. -/
def leftButtonUp (s : Desktop) : Desktop :=
  s.setMouse { s.mouse with dragLayerId := 0, previousMouseDownLayer := none }

def leftPressed (buttons : UInt8) : Bool := buttons &&& 0x01 != 0

/-- What `OnInterrupt` does about the left button: the id of the layer to close, or 0. -/
def onLeftButton (s : Desktop) (buttons : UInt8) (posdiff : Vector2D) : Except LayerFault (Nat × Desktop) :=
  match leftPressed s.mouse.previousButtons, leftPressed buttons with
  | false, true => s.leftButtonDown
  | true, true => (s.onDrag posdiff).map fun s => (0, s)
  | true, false => .ok (0, s.leftButtonUp)
  | false, false => .ok (0, s)

/-- The messages that are sent, and the state after the event. -/
def onInterrupt (s : Desktop) (buttons : UInt8) (displacementX displacementY : Int8) :
    Except LayerFault (List (Nat × Message) × Desktop) := do
  let oldpos := s.mouse.position
  let newpos := oldpos + ⟨displacementX.toInt, displacementY.toInt⟩
  let newpos := newpos.elementMin (s.screenSize + ⟨-1, -1⟩)
  let position := newpos.elementMax ⟨0, 0⟩
  let posdiff := position - oldpos
  let s := s.setMouse { s.mouse with position := position }
  let s ← s.move s.mouse.layerId position
  let (closeLayerId, s) ← s.onLeftButton buttons posdiff
  let messages :=
    if s.mouse.dragLayerId = 0 then
      if closeLayerId = 0 then s.sendMouseMessage newpos posdiff buttons s.mouse.previousButtons
      else s.sendCloseMessage
    else []
  return (messages, s.setMouse { s.mouse with previousButtons := buttons })

/-! ## Windows -/

/-- `layer_task_map->insert`, which keeps an entry that is there. -/
def insertTask (s : Desktop) (layerId task : Nat) : Desktop :=
  if (s.layerTaskMap layerId).isSome then s
  else { s with layerTaskMap := Function.update s.layerTaskMap layerId (some task) }

/-- The system call `OpenWindow` of a task. -/
def openWindow (s : Desktop) (size pos : Vector2D) (task : Nat) : Except LayerFault (Nat × Desktop) := do
  let (layer, s) := s.newLayer ⟨pos, size, true, true⟩
  let s ← s.activate layer.id
  return (layer.id, s.insertTask layer.id task)

/-- The window of a terminal; `pos` is what the memory of the new layer holds. -/
def openTerminal (s : Desktop) (pos : Vector2D) (task : Nat) : Except LayerFault Desktop := do
  let (layer, s) := s.newLayer ⟨pos, terminalSize, true, true⟩
  let s ← s.move layer.id ⟨450, 200⟩
  (s.insertTask layer.id task).activate layer.id

/-- The two windows of `TaskWallclock`. -/
def openWallclock (s : Desktop) : Except LayerFault Desktop := do
  let width := s.screenSize.x
  let height := s.screenSize.y
  let (date, s) := s.newLayer
    ⟨⟨width - 80 - 20, height - kTaskBarHeight.tdiv 2 - 8⟩, ⟨8 * 10, 16⟩, false, false⟩
  let (clock, s) := s.newLayer
    ⟨⟨width.tdiv 2 - 48 / 2, height - kInfoBallRadius - 5 - 48 / 2⟩, ⟨48, 48⟩, false, false⟩
  let s ← s.setIndex date.id 2
  s.setIndex clock.id 2

/-- `CloseLayer` -/
def closeLayer (s : Desktop) (layerId : Nat) : Except LayerFault (Error × Desktop) :=
  match s.toLayerSystem.closeLayer layerId with
  | none => .error .stack
  | some (.kSuccess, layers) =>
    .ok (.kSuccess, { s with toLayerSystem := layers,
                             layerTaskMap := Function.update s.layerTaskMap layerId none })
  | some (err, layers) => .ok (err, { s with toLayerSystem := layers })

end Desktop

end MikanSaos
