import MikanSaos.Graphics.Window

/-!
# LayerManager — a stack of windows, drawn into the back buffer and copied to the screen

A `Layer*` is written as the id of the layer, and every layer in the stack has a window.  `Draw(id)` is
`none` where the code would use a rectangle that it has not initialized.
-/

namespace MikanSaos

structure Layer where
  pos : Vector2D
  window : Window
  transparentable : Bool

namespace Layer

/-- The rectangle that the layer takes up. -/
def windowArea (l : Layer) : Rectangle := ⟨l.pos, l.window.size⟩

def drawTo (blend : PixelColor → PixelColor → PixelColor) (l : Layer) (writer : FrameBuffer)
    (area : Rectangle) (transparent : Bool) : FrameBuffer :=
  l.window.drawTo blend writer l.pos area transparent

end Layer

/-- The layer manager, and the global `globalTransparent`; the stack lists the lowest layer first. -/
structure LayerManager where
  screen : FrameBuffer
  backBuffer : FrameBuffer
  layer : Nat → Layer
  layerStack : List Nat
  globalTransparent : UInt8

namespace LayerManager

variable (alphablend : PixelColor → PixelColor → UInt8 → PixelColor)

/-- `layer->IsTransparentable() && globalTransparent!=0xff` -/
def transparent (m : LayerManager) (id : Nat) : Bool :=
  (m.layer id).transparentable && m.globalTransparent != 0xff

def drawLayer (m : LayerManager) (area : Rectangle) (backBuffer : FrameBuffer) (id : Nat) : FrameBuffer :=
  (m.layer id).drawTo (fun c bgc => alphablend c bgc m.globalTransparent) backBuffer area
    (m.transparent id)

/-- `Draw(area)` -/
def drawArea (m : LayerManager) (area : Rectangle) : LayerManager :=
  let backBuffer := m.layerStack.foldl (m.drawLayer alphablend area) m.backBuffer
  { m with backBuffer := backBuffer, screen := (m.screen.copy area.pos backBuffer area).2 }

/-- The loop of `Draw(id, area)`: the rectangle to draw once the layer has been met, whether the loop
was left because the layer is transparent, and the back buffer. -/
def drawStack (m : LayerManager) (id : Nat) :
    List Nat → Rectangle → Option Rectangle → FrameBuffer → Option Rectangle × Bool × FrameBuffer
  | [], _, windowArea, backBuffer => (windowArea, false, backBuffer)
  | layer :: stack, area, windowArea, backBuffer =>
    if layer = id then
      let outline := (m.layer id).windowArea
      let given : Bool := area.size.x ≥ 0 || area.size.y ≥ 0
      let area := if given then { area with pos := area.pos + outline.pos } else area
      let windowArea := if given then outline.inter area else outline
      if m.transparent id then (some windowArea, true, backBuffer)
      else drawStack m id stack area (some windowArea) (m.drawLayer alphablend windowArea backBuffer id)
    else
      match windowArea with
      | none => drawStack m id stack area none backBuffer
      | some windowArea =>
        let intersectionArea := windowArea.inter (m.layer layer).windowArea
        if intersectionArea.size.x = 0 ∨ intersectionArea.size.y = 0 then
          drawStack m id stack area (some windowArea) backBuffer
        else
          drawStack m id stack area (some windowArea)
            (m.drawLayer alphablend windowArea backBuffer layer)

/-- `Draw(id, area)` -/
def drawIn (m : LayerManager) (id : Nat) (area : Rectangle) : Option LayerManager :=
  match m.drawStack alphablend id m.layerStack area none m.backBuffer with
  | (none, _, _) => none
  | (some windowArea, transparent, backBuffer) =>
    let m := { m with backBuffer := backBuffer }
    if transparent then some (m.drawArea alphablend windowArea)
    else some { m with screen := (m.screen.copy windowArea.pos backBuffer windowArea).2 }

/-- `Draw(id)` -/
def draw (m : LayerManager) (id : Nat) : Option LayerManager :=
  m.drawIn alphablend id ⟨⟨0, 0⟩, ⟨-1, -1⟩⟩

/-- `Layer::Move` -/
def setPos (m : LayerManager) (id : Nat) (pos : Vector2D) : LayerManager :=
  { m with layer := Function.update m.layer id { m.layer id with pos := pos } }

def move (m : LayerManager) (id : Nat) (pos : Vector2D) : Option LayerManager :=
  let windowSize := (m.layer id).window.size
  let oldPos := (m.layer id).pos
  ((m.setPos id pos).drawArea alphablend ⟨oldPos, windowSize⟩).draw alphablend id

def moveRelative (m : LayerManager) (id : Nat) (posDelta : Vector2D) : Option LayerManager :=
  let windowSize := (m.layer id).window.size
  let oldPos := (m.layer id).pos
  ((m.setPos id (oldPos + posDelta)).drawArea alphablend ⟨oldPos, windowSize⟩).draw alphablend id

/-- Some writes to the window of a layer. -/
def writeWindow (m : LayerManager) (id : Nat) (writes : List (Vector2D × PixelColor)) : LayerManager :=
  { m with layer := Function.update m.layer id { m.layer id with
      window := writes.foldl (fun window w => window.write w.1 w.2) (m.layer id).window } }

end LayerManager

end MikanSaos
