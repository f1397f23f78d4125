import MikanSaos.Graphics.LayerManager

/-!
# ReferencePicture — what the screen should show

The picture is what painting all layers from the lowest to the topmost gives.  Redrawing part of the
stack in part of the screen keeps it, wherever the windows are.
-/

namespace MikanSaos

/-- The colour that a layer shows at a pixel of the screen: none beside its window and where the window
has its colour key. -/
def Layer.colourAt (l : Layer) (p : Vector2D) : Option PixelColor :=
  if l.windowArea.Contains p then l.window.shown (p - l.pos) else none

namespace LayerManager

/-- The colour of the topmost of some layers that shows one at `p`. -/
def topmost (m : LayerManager) (p : Vector2D) : List Nat → Option PixelColor
  | [] => none
  | id :: above => (topmost m p above).or ((m.layer id).colourAt p)

def reference (m : LayerManager) (p : Vector2D) : Option PixelColor := m.topmost p m.layerStack

/-- The visible pixels of `fb` are those of the reference picture, wherever some layer shows a colour. -/
def Shows (m : LayerManager) (fb : FrameBuffer) : Prop :=
  ∀ p, m.screen.outline.Contains p → ∀ c, m.reference p = some c → fb.getPixel p = c

/-- The lowest layer covers the screen and has no colour key. -/
def BottomCovers (m : LayerManager) : Prop :=
  ∃ bottom above, m.layerStack = bottom :: above ∧
    (m.layer bottom).window.transparentColor = none ∧
    ∀ p, m.screen.outline.Contains p → (m.layer bottom).windowArea.Contains p

/-- What `SetWriter` and those who make windows see to. -/
structure WellFormed (m : LayerManager) : Prop where
  nodup : m.layerStack.Nodup
  back : m.backBuffer.SameShape m.screen
  format : ∀ id ∈ m.layerStack,
    (m.layer id).window.shadowBuffer.pixelFormat = m.screen.pixelFormat
  alpha : m.globalTransparent = 0xff

variable {alphablend : PixelColor → PixelColor → UInt8 → PixelColor} {m : LayerManager} {id : Nat}
  {p : Vector2D} {area : Rectangle} {fb : FrameBuffer}

theorem topmost_append (below above : List Nat) :
    m.topmost p (below ++ above) = (m.topmost p above).or (m.topmost p below) := by
  induction below with
  | nil => exact (Option.or_none).symm
  | cons id below ih =>
    rw [List.cons_append, topmost, topmost, ih, Option.or_assoc]

/-- Over a covering lowest layer the picture has a colour everywhere. -/
theorem shows_iff (h : m.BottomCovers) :
    m.Shows fb ↔ ∀ p, m.screen.outline.Contains p → m.reference p = some (fb.getPixel p) := by
  obtain ⟨bottom, above, hstack, hkey, hcovers⟩ := h
  have hsome : ∀ p, m.screen.outline.Contains p → ∃ c, m.reference p = some c := by
    intro p hp
    have hbottom : (m.layer bottom).colourAt p =
        some ((m.layer bottom).window.shadowBuffer.getPixel (p - (m.layer bottom).pos)) := by
      rw [Layer.colourAt, if_pos (hcovers p hp), Window.shown, hkey]
    rw [reference, hstack, topmost, hbottom]
    cases m.topmost p above with
    | none => exact ⟨_, rfl⟩
    | some c => exact ⟨c, rfl⟩
  constructor
  · intro hshows p hp
    obtain ⟨c, hc⟩ := hsome p hp
    rw [hshows p hp c hc, hc]
  · intro hall p hp c hc
    rw [hall p hp] at hc
    exact Option.some.inj hc

/-! ## What drawing does to the visible pixels -/

theorem drawLayer_shape (alphablend : PixelColor → PixelColor → UInt8 → PixelColor) (m : LayerManager)
    (area : Rectangle) (fb : FrameBuffer) (id : Nat) :
    (m.drawLayer alphablend area fb id).SameShape fb :=
  Window.drawTo_shape ..

theorem drawLayer_getPixel (halpha : m.globalTransparent = 0xff)
    (hformat : (m.layer id).window.shadowBuffer.pixelFormat = fb.pixelFormat)
    (hp : fb.outline.Contains p) :
    (m.drawLayer alphablend area fb id).getPixel p =
      if area.Contains p then ((m.layer id).colourAt p).getD (fb.getPixel p) else fb.getPixel p := by
  have hopaque : m.transparent id = false := by
    rw [transparent, halpha, bne_self_eq_false, Bool.and_false]
  rw [drawLayer, hopaque, Layer.drawTo, Window.drawTo_getPixel _ hformat.symm hp, Layer.colourAt]
  by_cases harea : area.Contains p
  · by_cases hwindow : (m.layer id).windowArea.Contains p
    · rw [if_pos ⟨hwindow, harea⟩, if_pos harea, if_pos hwindow]
    · rw [if_neg fun h => hwindow h.1, if_pos harea, if_neg hwindow]
      rfl
  · rw [if_neg fun h => harea h.2, if_neg harea]

/-- Drawing some layers from the lowest to the topmost. -/
theorem foldl_drawLayer (halpha : m.globalTransparent = 0xff) {ids : List Nat}
    (hformat : ∀ id ∈ ids, (m.layer id).window.shadowBuffer.pixelFormat = fb.pixelFormat)
    (hp : fb.outline.Contains p) :
    (ids.foldl (m.drawLayer alphablend area) fb).getPixel p =
      if area.Contains p then (m.topmost p ids).getD (fb.getPixel p) else fb.getPixel p := by
  induction ids generalizing fb with
  | nil => exact (ite_self _).symm
  | cons id above ih =>
    have hshape := drawLayer_shape alphablend m area fb id
    have hrest : ∀ id' ∈ above, (m.layer id').window.shadowBuffer.pixelFormat =
        (m.drawLayer alphablend area fb id).pixelFormat := by
      intro id' hid'
      rw [hshape.pixelFormat]
      exact hformat id' (List.mem_cons_of_mem _ hid')
    rw [List.foldl_cons, ih hrest (hshape.outline.symm ▸ hp),
      drawLayer_getPixel halpha (hformat id List.mem_cons_self) hp, topmost]
    by_cases harea : area.Contains p
    · rw [if_pos harea, if_pos harea, if_pos harea]
      cases m.topmost p above <;> rfl
    · rw [if_neg harea, if_neg harea, if_neg harea]

/-- A layer that does not meet the rectangle shows nothing in it. -/
theorem colourAt_of_apart {windowArea : Rectangle}
    (hsize : (windowArea.inter (m.layer id).windowArea).size.x = 0 ∨
      (windowArea.inter (m.layer id).windowArea).size.y = 0) (hp : windowArea.Contains p) :
    (m.layer id).colourAt p = none := by
  have hnone := Rectangle.not_contains_of_size (p := p) hsize
  rw [Rectangle.contains_inter] at hnone
  exact if_neg fun h => hnone ⟨hp, h⟩

/-- The loop of `Draw(id)` above the layer: what it skips would change nothing. -/
theorem drawStack_above (alphablend : PixelColor → PixelColor → UInt8 → PixelColor)
    (halpha : m.globalTransparent = 0xff) {above : List Nat} (hnot : id ∉ above)
    (hformat : ∀ id' ∈ above, (m.layer id').window.shadowBuffer.pixelFormat = fb.pixelFormat)
    (given windowArea : Rectangle) :
    ∃ fb', m.drawStack alphablend id above given (some windowArea) fb = (some windowArea, false, fb') ∧
      fb'.SameShape fb ∧ ∀ p, fb.outline.Contains p → fb'.getPixel p =
        if windowArea.Contains p then (m.topmost p above).getD (fb.getPixel p) else fb.getPixel p := by
  induction above generalizing fb with
  | nil => exact ⟨fb, rfl, .refl fb, fun p _ => (ite_self _).symm⟩
  | cons layer above ih =>
    rw [List.mem_cons, not_or] at hnot
    rw [drawStack, if_neg fun h => hnot.1 h.symm]
    dsimp only
    split
    · rename_i hsize
      obtain ⟨fb', heq, hshape, hpixels⟩ :=
        ih hnot.2 fun id' hid' => hformat id' (List.mem_cons_of_mem _ hid')
      refine ⟨fb', heq, hshape, fun p hp => ?_⟩
      rw [hpixels p hp, topmost]
      by_cases harea : windowArea.Contains p
      · rw [colourAt_of_apart hsize harea, Option.or_none]
      · rw [if_neg harea, if_neg harea]
    · have hdrawn := drawLayer_shape alphablend m windowArea fb layer
      have hrest : ∀ id' ∈ above, (m.layer id').window.shadowBuffer.pixelFormat =
          (m.drawLayer alphablend windowArea fb layer).pixelFormat := by
        intro id' hid'
        rw [hdrawn.pixelFormat]
        exact hformat id' (List.mem_cons_of_mem _ hid')
      obtain ⟨fb', heq, hshape, hpixels⟩ := ih hnot.2 hrest
      refine ⟨fb', heq, hshape.trans hdrawn, fun p hp => ?_⟩
      rw [hpixels p (hdrawn.outline.symm ▸ hp),
        drawLayer_getPixel halpha (hformat layer List.mem_cons_self) hp, topmost]
      by_cases harea : windowArea.Contains p
      · rw [if_pos harea, if_pos harea, if_pos harea]
        cases m.topmost p above <;> rfl
      · rw [if_neg harea, if_neg harea, if_neg harea]

/-- The loop of `Draw(id)` below the layer does nothing. -/
theorem drawStack_below {below : List Nat} (hnot : id ∉ below) (rest : List Nat) (given : Rectangle) :
    m.drawStack alphablend id (below ++ rest) given none fb =
      m.drawStack alphablend id rest given none fb := by
  induction below with
  | nil => rfl
  | cons layer below ih =>
    rw [List.mem_cons, not_or] at hnot
    rw [List.cons_append, drawStack, if_neg fun h => hnot.1 h.symm]
    exact ih hnot.2

/-- `m'` is `m` after some layers have been drawn in `area` and `area` has been copied to the screen. -/
structure Redraws (m m' : LayerManager) (area : Rectangle) (ids : List Nat) : Prop where
  layer : m'.layer = m.layer
  layerStack : m'.layerStack = m.layerStack
  alpha : m'.globalTransparent = m.globalTransparent
  screenShape : m'.screen.SameShape m.screen
  backShape : m'.backBuffer.SameShape m.backBuffer
  back : ∀ p, m.screen.outline.Contains p → m'.backBuffer.getPixel p =
    if area.Contains p then (m.topmost p ids).getD (m.backBuffer.getPixel p)
    else m.backBuffer.getPixel p
  screen : ∀ p, m.screen.outline.Contains p → m'.screen.getPixel p =
    if area.Contains p then m'.backBuffer.getPixel p else m.screen.getPixel p

/-- `_screen->Copy(area.pos, _back_buffer, area)` -/
theorem copy_back_getPixel {screen back : FrameBuffer} (hshape : back.SameShape screen)
    (area : Rectangle) (hp : screen.outline.Contains p) :
    (screen.copy area.pos back area).2.getPixel p =
      if area.Contains p then back.getPixel p else screen.getPixel p := by
  have hshift : p - (area.pos - area.pos) = p := by
    apply Vector2D.ext
    · show p.x - (area.pos.x - area.pos.x) = p.x
      omega
    · show p.y - (area.pos.y - area.pos.y) = p.y
      omega
  rw [FrameBuffer.copy_getPixel hshape.pixelFormat.symm _ _ hp, hshift]
  have hcontains : (screen.copyArea area.pos back area).Contains p ↔ area.Contains p := by
    rw [FrameBuffer.contains_copyArea, hshift, hshape.outline]
    exact and_iff_right ⟨hp, hp⟩
  simp only [hcontains]

/-- A back buffer that is drawn and copied. -/
theorem Redraws.of_back (h : m.WellFormed) {ids : List Nat} {backBuffer : FrameBuffer}
    (hshape : backBuffer.SameShape m.backBuffer)
    (hback : ∀ p, m.backBuffer.outline.Contains p → backBuffer.getPixel p =
      if area.Contains p then (m.topmost p ids).getD (m.backBuffer.getPixel p)
      else m.backBuffer.getPixel p) :
    Redraws m { m with backBuffer := backBuffer,
                       screen := (m.screen.copy area.pos backBuffer area).2 } area ids where
  layer := rfl
  layerStack := rfl
  alpha := rfl
  screenShape := FrameBuffer.copy_shape ..
  backShape := hshape
  back := fun p hp => hback p (h.back.outline.symm ▸ hp)
  screen := fun _ hp => copy_back_getPixel (hshape.trans h.back) area hp

theorem WellFormed.format_back (h : m.WellFormed) {id : Nat} (hid : id ∈ m.layerStack) :
    (m.layer id).window.shadowBuffer.pixelFormat = m.backBuffer.pixelFormat := by
  rw [h.back.pixelFormat]
  exact h.format id hid

theorem drawArea_redraws (alphablend : PixelColor → PixelColor → UInt8 → PixelColor) (h : m.WellFormed)
    (area : Rectangle) :
    Redraws m (m.drawArea alphablend area) area m.layerStack := by
  apply Redraws.of_back h
  · exact FrameBuffer.SameShape.foldl (drawLayer_shape alphablend m area) ..
  · exact fun p hp => foldl_drawLayer h.alpha (fun id hid => h.format_back hid) hp

theorem draw_redraws (alphablend : PixelColor → PixelColor → UInt8 → PixelColor) (h : m.WellFormed)
    {below above : List Nat}
    (hstack : m.layerStack = below ++ id :: above) :
    ∃ m', m.draw alphablend id = some m' ∧ Redraws m m' (m.layer id).windowArea (id :: above) := by
  have hnodup := h.nodup
  rw [hstack, List.nodup_append, List.nodup_cons] at hnodup
  obtain ⟨-, ⟨habove, -⟩, hapart⟩ := hnodup
  have hbelow : id ∉ below := fun hid => hapart id hid id List.mem_cons_self rfl
  have hformat : ∀ id' ∈ id :: above,
      (m.layer id').window.shadowBuffer.pixelFormat = m.backBuffer.pixelFormat := by
    intro id' hid'
    apply h.format_back
    rw [hstack]
    exact List.mem_append_right _ hid'
  have hopaque : m.transparent id = false := by
    rw [transparent, h.alpha, bne_self_eq_false, Bool.and_false]
  have hdrawn := drawLayer_shape alphablend m (m.layer id).windowArea m.backBuffer id
  -- the layer itself, and then those above it
  have hrest : ∀ id' ∈ above, (m.layer id').window.shadowBuffer.pixelFormat =
      (m.drawLayer alphablend (m.layer id).windowArea m.backBuffer id).pixelFormat := by
    intro id' hid'
    rw [hdrawn.pixelFormat]
    exact hformat id' (List.mem_cons_of_mem _ hid')
  obtain ⟨fb, heq, hshape, hpixels⟩ := drawStack_above alphablend h.alpha habove hrest
    ⟨⟨0, 0⟩, ⟨-1, -1⟩⟩ (m.layer id).windowArea
  have hloop : m.drawStack alphablend id m.layerStack ⟨⟨0, 0⟩, ⟨-1, -1⟩⟩ none m.backBuffer =
      (some (m.layer id).windowArea, false, fb) := by
    rw [hstack, drawStack_below hbelow, drawStack, if_pos rfl, hopaque]
    exact heq
  refine ⟨_, ?_, Redraws.of_back h (hshape.trans hdrawn) ?_⟩
  · rw [draw, drawIn, hloop]
    rfl
  · intro p hp
    rw [hpixels p (hdrawn.outline.symm ▸ hp),
      drawLayer_getPixel h.alpha (hformat id List.mem_cons_self) hp, topmost]
    by_cases harea : (m.layer id).windowArea.Contains p
    · rw [if_pos harea, if_pos harea, if_pos harea]
      cases m.topmost p above <;> rfl
    · rw [if_neg harea, if_neg harea, if_neg harea]

/-! ## Redrawing keeps the picture -/

theorem topmost_congr {m' : LayerManager} {ids : List Nat}
    (h : ∀ id ∈ ids, (m'.layer id).colourAt p = (m.layer id).colourAt p) :
    m'.topmost p ids = m.topmost p ids := by
  induction ids with
  | nil => rfl
  | cons id above ih =>
    rw [topmost, topmost, h id List.mem_cons_self, ih fun id' hid' => h id' (List.mem_cons_of_mem _ hid')]

theorem Redraws.reference {m' : LayerManager} {ids : List Nat} (h : Redraws m m' area ids) :
    m'.reference p = m.reference p := by
  unfold LayerManager.reference
  rw [h.layerStack]
  exact topmost_congr fun id _ => by rw [h.layer]

theorem Redraws.wellFormed {m' : LayerManager} {ids : List Nat} (h : Redraws m m' area ids)
    (hwf : m.WellFormed) : m'.WellFormed := by
  refine ⟨?_, ?_, ?_, h.alpha.trans hwf.alpha⟩
  · rw [h.layerStack]
    exact hwf.nodup
  · have hback := h.backShape.trans hwf.back
    exact ⟨hback.outline.trans h.screenShape.outline.symm,
      hback.pixelFormat.trans h.screenShape.pixelFormat.symm⟩
  · intro id hid
    rw [h.layerStack] at hid
    rw [h.layer, h.screenShape.pixelFormat]
    exact hwf.format id hid

/-- The back buffer and the screen both show the reference picture. -/
structure UpToDate (m : LayerManager) : Prop where
  wellFormed : m.WellFormed
  back : m.Shows m.backBuffer
  screen : m.Shows m.screen

/-- `m'` is `m` after the visible pixels have been brought up to date. -/
structure Redrawn (m m' : LayerManager) : Prop where
  layer : m'.layer = m.layer
  layerStack : m'.layerStack = m.layerStack
  outline : m'.screen.outline = m.screen.outline
  upToDate : m'.UpToDate

/-- Layers above and below one that changes, with a layer stack that has it in the middle. -/
theorem reference_split {below above : List Nat} (hstack : m.layerStack = below ++ id :: above) :
    m.reference p = ((m.topmost p above).or ((m.layer id).colourAt p)).or (m.topmost p below) := by
  rw [reference, hstack, topmost_append, topmost]

theorem setPos_layer_self (m : LayerManager) (id : Nat) (pos : Vector2D) :
    (m.setPos id pos).layer id = { m.layer id with pos := pos } := Function.update_self ..

theorem setPos_layer_of_ne (m : LayerManager) (pos : Vector2D) {id id' : Nat} (h : id' ≠ id) :
    (m.setPos id pos).layer id' = m.layer id' := Function.update_of_ne h ..

theorem WellFormed.setPos (h : m.WellFormed) (id : Nat) (pos : Vector2D) :
    (m.setPos id pos).WellFormed := by
  refine ⟨h.nodup, h.back, fun id' hid' => ?_, h.alpha⟩
  by_cases hne : id' = id
  · rw [hne, setPos_layer_self]
    exact h.format id (hne ▸ hid')
  · rw [setPos_layer_of_ne m pos hne]
    exact h.format id' hid'

/-- The layers around one in the middle of the stack are others. -/
theorem WellFormed.ne_of_mem (h : m.WellFormed) {below above : List Nat}
    (hstack : m.layerStack = below ++ id :: above) :
    (∀ id' ∈ above, id' ≠ id) ∧ ∀ id' ∈ below, id' ≠ id := by
  have hnodup := h.nodup
  rw [hstack, List.nodup_append, List.nodup_cons] at hnodup
  obtain ⟨-, ⟨habove, -⟩, hapart⟩ := hnodup
  exact ⟨fun id' hid' heq => habove (heq ▸ hid'), fun id' hid' => hapart id' hid' id List.mem_cons_self⟩

/-- One pixel of a move: `above`, `old`, `new` and `below` are the colours of the layers above, of the layer
before and after, and of those below, and `back` and `screen` go through the two redraws. -/
theorem moved_pixel {inOld inNew : Prop} [Decidable inOld] [Decidable inNew]
    {above old new below : Option PixelColor} {back back₁ back₂ screen screen₁ screen₂ c : PixelColor}
    (hold : ¬ inOld → old = none) (hnew : ¬ inNew → new = none)
    (hback : ∀ c, (above.or old).or below = some c → back = c)
    (hscreen : ∀ c, (above.or old).or below = some c → screen = c)
    (hback₁ : back₁ = if inOld then ((above.or new).or below).getD back else back)
    (hscreen₁ : screen₁ = if inOld then back₁ else screen)
    (hback₂ : back₂ = if inNew then (above.or new).getD back₁ else back₁)
    (hscreen₂ : screen₂ = if inNew then back₂ else screen₁)
    (hc : (above.or new).or below = some c) : back₂ = c ∧ screen₂ = c := by
  -- where the layer shows nothing now, the first redraw has left the right colours
  have hfirst : new = none → back₁ = c ∧ screen₁ = c := by
    intro hnone
    by_cases hin : inOld
    · rw [if_pos hin] at hback₁ hscreen₁
      rw [hscreen₁, hback₁, hc]
      exact ⟨rfl, rfl⟩
    · rw [if_neg hin] at hback₁ hscreen₁
      rw [hback₁, hscreen₁]
      rw [hnone, ← hold hin] at hc
      exact ⟨hback c hc, hscreen c hc⟩
  by_cases hin : inNew
  · rw [if_pos hin] at hback₂ hscreen₂
    rw [hscreen₂, and_self, hback₂]
    cases htop : above.or new with
    | some c' =>
      rw [htop] at hc
      exact Option.some.inj hc
    | none => exact (hfirst (Option.or_eq_none_iff.mp htop).2).1
  · rw [if_neg hin] at hback₂ hscreen₂
    rw [hback₂, hscreen₂]
    exact hfirst (hnew hin)

/-- A layer is moved, the place where it was is redrawn, and then the layer where it is now. -/
theorem UpToDate.moved (h : m.UpToDate) {below above : List Nat}
    (hstack : m.layerStack = below ++ id :: above) (pos : Vector2D) :
    ∃ m', ((m.setPos id pos).drawArea alphablend (m.layer id).windowArea).draw alphablend id = some m' ∧
      Redrawn (m.setPos id pos) m' := by
  have hmoved := h.wellFormed.setPos id pos
  have hold := drawArea_redraws alphablend hmoved (m.layer id).windowArea
  obtain ⟨m', heq, hnew⟩ := draw_redraws alphablend (hold.wellFormed hmoved)
    (hold.layerStack.trans hstack)
  obtain ⟨habove, hbelow⟩ := h.wellFormed.ne_of_mem hstack
  have hpixels : ∀ p, m'.screen.outline.Contains p → ∀ c, m'.reference p = some c →
      m'.backBuffer.getPixel p = c ∧ m'.screen.getPixel p = c := by
    intro p hp c hc
    replace hp : m.screen.outline.Contains p :=
      (hnew.screenShape.trans hold.screenShape).outline ▸ hp
    have hp₁ := hold.screenShape.outline.symm ▸ hp
    -- the layers above and below show what they showed before
    have hsame : ∀ ids : List Nat, (∀ id' ∈ ids, id' ≠ id) →
        (m.setPos id pos).topmost p ids = m.topmost p ids := fun ids hne =>
      topmost_congr fun id' hid' => by rw [setPos_layer_of_ne m pos (hne id' hid')]
    have href : (m.setPos id pos).reference p = ((m.topmost p above).or
        (((m.setPos id pos).layer id).colourAt p)).or (m.topmost p below) := by
      have hstack₀ : (m.setPos id pos).layerStack = below ++ id :: above := hstack
      rw [reference_split hstack₀, hsame above habove, hsame below hbelow]
    have htop : ((m.setPos id pos).drawArea alphablend (m.layer id).windowArea).topmost p (id :: above) =
        (m.topmost p above).or (((m.setPos id pos).layer id).colourAt p) := by
      rw [← hsame above habove]
      exact topmost_congr fun id' _ => by rw [hold.layer]
    have hback₂ := hnew.back p hp₁
    rw [htop, hold.layer] at hback₂
    have hscreen₂ := hnew.screen p hp₁
    rw [hold.layer] at hscreen₂
    have hback₁ := hold.back p hp
    rw [← reference, href] at hback₁
    rw [hnew.reference, hold.reference, href] at hc
    have hwas : ¬ (m.layer id).windowArea.Contains p → (m.layer id).colourAt p = none :=
      fun hin => if_neg hin
    refine moved_pixel hwas (fun hin => if_neg hin) ?_ ?_ hback₁ (hold.screen p hp) hback₂ hscreen₂ hc
    · intro c hc
      rw [← reference_split hstack] at hc
      exact h.back p hp c hc
    · intro c hc
      rw [← reference_split hstack] at hc
      exact h.screen p hp c hc
  exact ⟨m', heq, hnew.layer.trans hold.layer, hnew.layerStack.trans hold.layerStack,
    (hnew.screenShape.trans hold.screenShape).outline, hnew.wellFormed (hold.wellFormed hmoved),
    fun p hp c hc => (hpixels p hp c hc).1, fun p hp c hc => (hpixels p hp c hc).2⟩

/-- Writes change the pixels of a window and nothing else. -/
theorem foldl_window_write (writes : List (Vector2D × PixelColor)) (w : Window) :
    (writes.foldl (fun window w => window.write w.1 w.2) w).size = w.size ∧
      (writes.foldl (fun window w => window.write w.1 w.2) w).transparentColor = w.transparentColor ∧
      (writes.foldl (fun window w => window.write w.1 w.2) w).shadowBuffer.pixelFormat =
        w.shadowBuffer.pixelFormat := by
  induction writes generalizing w with
  | nil => exact ⟨rfl, rfl, rfl⟩
  | cons write writes ih => exact ih (w.write write.1 write.2)

/-- The window of a layer without colour key is written to, and the layer is redrawn. -/
theorem UpToDate.written (h : m.UpToDate) {below above : List Nat}
    (hstack : m.layerStack = below ++ id :: above)
    (hkey : (m.layer id).window.transparentColor = none) (writes : List (Vector2D × PixelColor)) :
    ∃ m', (m.writeWindow id writes).draw alphablend id = some m' ∧
      Redrawn (m.writeWindow id writes) m' := by
  obtain ⟨hsize, hkey', hformat⟩ := foldl_window_write writes (m.layer id).window
  obtain ⟨habove, hbelow⟩ := h.wellFormed.ne_of_mem hstack
  have hself : (m.writeWindow id writes).layer id = { m.layer id with
      window := writes.foldl (fun window w => window.write w.1 w.2) (m.layer id).window } :=
    Function.update_self ..
  have hother : ∀ id', id' ≠ id → (m.writeWindow id writes).layer id' = m.layer id' :=
    fun id' hne => Function.update_of_ne hne ..
  have harea : ((m.writeWindow id writes).layer id).windowArea = (m.layer id).windowArea := by
    rw [hself, Layer.windowArea, hsize]
    rfl
  have hwf : (m.writeWindow id writes).WellFormed := by
    refine ⟨h.wellFormed.nodup, h.wellFormed.back, fun id' hid' => ?_, h.wellFormed.alpha⟩
    by_cases hne : id' = id
    · rw [hne, hself]
      exact hformat.trans (h.wellFormed.format id (hne ▸ hid'))
    · rw [hother id' hne]
      exact h.wellFormed.format id' hid'
  have hstack₀ : (m.writeWindow id writes).layerStack = below ++ id :: above := hstack
  obtain ⟨m', heq, hnew⟩ := draw_redraws alphablend hwf hstack₀
  have hpixels : ∀ p, m'.screen.outline.Contains p → ∀ c, m'.reference p = some c →
      m'.backBuffer.getPixel p = c ∧ m'.screen.getPixel p = c := by
    intro p hp c hc
    replace hp : m.screen.outline.Contains p := hnew.screenShape.outline ▸ hp
    have hback := hnew.back p hp
    have hscreen := hnew.screen p hp
    rw [hnew.reference] at hc
    rw [harea] at hback hscreen
    by_cases hin : (m.layer id).windowArea.Contains p
    · -- without colour key the layer, or one above it, gives the colour
      rw [if_pos hin] at hback hscreen
      rw [hscreen, and_self, hback]
      have hshown : ∃ c', ((m.writeWindow id writes).layer id).colourAt p = some c' := by
        rw [Layer.colourAt, harea, if_pos hin, hself, Window.shown, hkey', hkey]
        exact ⟨_, rfl⟩
      obtain ⟨c', hshown⟩ := hshown
      rw [reference_split hstack₀, hshown] at hc
      rw [topmost, hshown]
      cases htop : (m.writeWindow id writes).topmost p above with
      | some c'' =>
        rw [htop] at hc
        exact Option.some.inj hc
      | none =>
        rw [htop] at hc
        exact Option.some.inj hc
    · rw [if_neg hin] at hback hscreen
      rw [hback, hscreen]
      have hcolour : ∀ id', ((m.writeWindow id writes).layer id').colourAt p =
          (m.layer id').colourAt p := by
        intro id'
        by_cases hne : id' = id
        · rw [hne, Layer.colourAt, Layer.colourAt, harea, if_neg hin, if_neg hin]
        · rw [hother id' hne]
      have hsame : m.reference p = some c := by
        rw [← hc]
        exact (topmost_congr fun id' _ => hcolour id').symm
      exact ⟨h.back p hp c hsame, h.screen p hp c hsame⟩
  exact ⟨m', heq, hnew.layer, hnew.layerStack, hnew.screenShape.outline, hnew.wellFormed hwf,
    fun p hp c hc => (hpixels p hp c hc).1, fun p hp c hc => (hpixels p hp c hc).2⟩

/-- `Fresh` draws everything, so that its picture is right whatever was there. -/
theorem fresh_upToDate (alphablend : PixelColor → PixelColor → UInt8 → PixelColor)
    (h : m.WellFormed) : (m.drawArea alphablend m.screen.outline).UpToDate := by
  have hnew := drawArea_redraws alphablend h m.screen.outline
  have hback : ∀ p, m.screen.outline.Contains p → ∀ c,
      (m.drawArea alphablend m.screen.outline).reference p = some c →
        (m.drawArea alphablend m.screen.outline).backBuffer.getPixel p = c := by
    intro p hp c hc
    rw [hnew.reference, reference] at hc
    rw [hnew.back p hp, if_pos hp, hc]
    rfl
  refine ⟨hnew.wellFormed h, fun p hp => hback p (hnew.screenShape.outline ▸ hp), fun p hp c hc => ?_⟩
  have hp' := hnew.screenShape.outline ▸ hp
  rw [hnew.screen p hp', if_pos hp']
  exact hback p hp' c hc

end LayerManager

open LayerManager

/-- **Redrawing a part gives the whole picture.**  If the back buffer and the screen show the reference
picture, they show that of the new stack after a layer has been moved, and after the window of a layer
without colour key has been written to and drawn.  Over a covering lowest layer the picture has a colour
at every pixel. -/
theorem redraw_reference (alphablend : PixelColor → PixelColor → UInt8 → PixelColor)
    {m : LayerManager} (h : m.UpToDate) {id : Nat} (hid : id ∈ m.layerStack) :
    (∀ pos, ∃ m', m.move alphablend id pos = some m' ∧ Redrawn (m.setPos id pos) m') ∧
      (∀ posDelta, ∃ m', m.moveRelative alphablend id posDelta = some m' ∧
        Redrawn (m.setPos id ((m.layer id).pos + posDelta)) m') ∧
      (∀ writes, (m.layer id).window.transparentColor = none →
        ∃ m', (m.writeWindow id writes).draw alphablend id = some m' ∧
          Redrawn (m.writeWindow id writes) m') ∧
      ∀ m' : LayerManager, m'.UpToDate → m'.BottomCovers → ∀ p, m'.screen.outline.Contains p →
        m'.reference p = some (m'.backBuffer.getPixel p) ∧
          m'.reference p = some (m'.screen.getPixel p) := by
  obtain ⟨below, above, hstack⟩ := List.append_of_mem hid
  refine ⟨fun pos => ?_, fun posDelta => ?_, fun writes hkey => ?_, fun m' hup hcovers p hp => ?_⟩
  · exact h.moved hstack pos
  · exact h.moved hstack ((m.layer id).pos + posDelta)
  · exact h.written hstack hkey writes
  · exact ⟨(shows_iff hcovers).mp hup.back p hp, (shows_iff hcovers).mp hup.screen p hp⟩

/-- A black window that covers a screen of 2 × 2 pixels, and a red one of a single pixel. -/
def twoLayers : LayerManager where
  screen := .allocate 2 2 .kPixelRGBResv8BitPerColor
  backBuffer := .allocate 2 2 .kPixelRGBResv8BitPerColor
  layer := fun id =>
    if id = 1 then ⟨⟨0, 0⟩, .new 2 2 .kPixelRGBResv8BitPerColor, false⟩
    else ⟨⟨0, 0⟩, (Window.new 1 1 .kPixelRGBResv8BitPerColor).write ⟨0, 0⟩ ⟨255, 0, 0⟩, false⟩
  layerStack := [1, 2]
  globalTransparent := 0xff

theorem twoLayers_wellFormed : twoLayers.WellFormed :=
  ⟨by decide, .refl _, by decide, rfl⟩

/-- The red window moves from the first pixel of the screen to the last. -/
theorem redraw_reference_two_layers :
    ∃ m', (twoLayers.drawArea (fun c _ _ => c) twoLayers.screen.outline).move (fun c _ _ => c) 2 ⟨1, 1⟩ =
        some m' ∧
      m'.screen.getPixel ⟨1, 1⟩ = ⟨255, 0, 0⟩ ∧ m'.screen.getPixel ⟨0, 0⟩ = ⟨0, 0, 0⟩ := by
  have hup := fresh_upToDate (fun c _ _ => c) twoLayers_wellFormed
  have hid : 2 ∈ (twoLayers.drawArea (fun c _ _ => c) twoLayers.screen.outline).layerStack := by decide
  obtain ⟨m', heq, hnew⟩ := (redraw_reference (fun c _ _ => c) hup hid).1 ⟨1, 1⟩
  have hpixel : ∀ p c, Rectangle.Contains ⟨⟨0, 0⟩, ⟨2, 2⟩⟩ p →
      ((twoLayers.drawArea (fun c _ _ => c) twoLayers.screen.outline).setPos 2 ⟨1, 1⟩).reference p =
        some c → m'.screen.getPixel p = c := by
    intro p c hp hc
    refine hnew.upToDate.screen p (hnew.outline ▸ hp) c (Eq.trans ?_ hc)
    rw [reference, hnew.layerStack]
    exact topmost_congr fun id _ => by rw [hnew.layer]
  exact ⟨m', heq, hpixel _ _ (by decide) (by decide), hpixel _ _ (by decide) (by decide)⟩

end MikanSaos
