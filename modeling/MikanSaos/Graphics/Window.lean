import MikanSaos.Graphics.FrameBuffer

/-!
# Window — a picture that is kept twice

`_data` serves the drawing path with a colour key or with transparency, `_shadow_buffer` the path without
them.  `blend` stands for the floating-point `alphablend` with the global alpha.
-/

namespace MikanSaos

structure Window where
  width : Nat
  height : Nat
  data : Vector2D → PixelColor
  transparentColor : Option PixelColor
  shadowBuffer : FrameBuffer
  shadow_size : shadowBuffer.size = ⟨width, height⟩

namespace Window

/-- The constructor. -/
def new (width height : Nat) (shadowFormat : PixelFormat) : Window :=
  ⟨width, height, fun _ => ⟨0, 0, 0⟩, none, .allocate width height shadowFormat, rfl⟩

def size (w : Window) : Vector2D := ⟨w.width, w.height⟩

/-- `At` -/
def pixelAt (w : Window) (pos : Vector2D) : PixelColor := w.data pos

def write (w : Window) (pos : Vector2D) (c : PixelColor) : Window :=
  { w with data := Function.update w.data pos c, shadowBuffer := w.shadowBuffer.write pos c }

theorem move_size (fb : FrameBuffer) (dstPos : Vector2D) (src : Rectangle) :
    (fb.move dstPos src).size = fb.size := by
  unfold FrameBuffer.move
  split <;> rfl

def move (w : Window) (dstPos : Vector2D) (src : Rectangle) : Window :=
  { w with shadowBuffer := w.shadowBuffer.move dstPos src,
           shadow_size := (move_size _ _ _).trans w.shadow_size }

/-- The path of `DrawTo` that copies the shadow buffer. -/
def drawShadow (w : Window) (dst : FrameBuffer) (pos : Vector2D) (intersectionArea : Rectangle) :
    FrameBuffer :=
  (dst.copy intersectionArea.pos w.shadowBuffer
    ⟨intersectionArea.pos - pos, intersectionArea.size⟩).2

/-- The path of `DrawTo` that looks at each pixel. -/
def drawPixels (blend : PixelColor → PixelColor → PixelColor) (w : Window) (dst : FrameBuffer)
    (pos : Vector2D) (intersectionArea : Rectangle) (transparent : Bool) : FrameBuffer :=
  let deltaPos := intersectionArea.pos - pos
  (Int.range (max 0 (0 - intersectionArea.pos.y)) (min intersectionArea.size.y
      (dst.verticalResolution - intersectionArea.pos.y))).foldl (fun fb y =>
    (Int.range (max 0 (0 - intersectionArea.pos.x)) (min intersectionArea.size.x
        (dst.horizontalResolution - intersectionArea.pos.x))).foldl (fun fb x =>
      let c := w.pixelAt ⟨x + deltaPos.x, y + deltaPos.y⟩
      if w.transparentColor ≠ some c then
        let pixelColor :=
          if transparent then blend c (fb.getPixel (intersectionArea.pos + ⟨x, y⟩)) else c
        fb.write (intersectionArea.pos + ⟨x, y⟩) pixelColor
      else fb) fb) dst

def drawTo (blend : PixelColor → PixelColor → PixelColor) (w : Window) (dst : FrameBuffer)
    (pos : Vector2D) (area : Rectangle) (transparent : Bool) : FrameBuffer :=
  let windowArea : Rectangle := ⟨pos, w.size⟩
  let intersectionArea := windowArea.inter area
  if intersectionArea.size.x = 0 ∨ intersectionArea.size.y = 0 then dst
  else if w.transparentColor = none ∧ transparent = false then
    w.drawShadow dst pos intersectionArea
  else w.drawPixels blend dst pos intersectionArea transparent

/-! ## What is drawn -/

variable {w : Window} {dst : FrameBuffer} {pos p q : Vector2D} {area : Rectangle}

/-- The colour a window puts on the screen at one of its pixels, if it puts one there. -/
def shown (w : Window) (q : Vector2D) : Option PixelColor :=
  match w.transparentColor with
  | none => some (w.shadowBuffer.getPixel q)
  | some tc => if w.pixelAt q = tc then none else some (w.pixelAt q)

theorem shadow_outline_contains :
    w.shadowBuffer.outline.Contains (p - pos) ↔ Rectangle.Contains ⟨pos, w.size⟩ p := by
  unfold FrameBuffer.outline
  rw [w.shadow_size]
  unfold Rectangle.Contains size
  dsimp only [Vector2D.sub_x, Vector2D.sub_y]
  omega

theorem drawShadow_getPixel (hformat : dst.pixelFormat = w.shadowBuffer.pixelFormat)
    (hp : dst.outline.Contains p) :
    (w.drawShadow dst pos (Rectangle.inter ⟨pos, w.size⟩ area)).getPixel p =
      if Rectangle.Contains ⟨pos, w.size⟩ p ∧ area.Contains p then w.shadowBuffer.getPixel (p - pos)
      else dst.getPixel p := by
  have hshift : ∀ q : Vector2D, q - (q - pos) = pos := by
    intro q
    apply Vector2D.ext
    · show q.x - (q.x - pos.x) = pos.x
      omega
    · show q.y - (q.y - pos.y) = pos.y
      omega
  unfold drawShadow
  rw [FrameBuffer.copy_getPixel hformat _ _ hp]
  dsimp only
  rw [hshift]
  have hcontains : (dst.copyArea (Rectangle.inter ⟨pos, w.size⟩ area).pos w.shadowBuffer
      ⟨(Rectangle.inter ⟨pos, w.size⟩ area).pos - pos,
        (Rectangle.inter ⟨pos, w.size⟩ area).size⟩).Contains p ↔
      Rectangle.Contains ⟨pos, w.size⟩ p ∧ area.Contains p := by
    rw [FrameBuffer.contains_copyArea]
    dsimp only
    rw [hshift, shadow_outline_contains]
    change (_ ∧ _) ∧ (Rectangle.inter ⟨pos, w.size⟩ area).Contains p ↔ _
    rw [Rectangle.contains_inter]
    constructor
    · exact fun h => h.2
    · exact fun h => ⟨⟨hp, h.1⟩, h⟩
  simp only [hcontains]

/-- Writing some of the pixels of a list, each with its colour. -/
theorem foldl_write_getPixel {offsets : List Vector2D} (origin : Vector2D)
    (colour : Vector2D → PixelColor) (skip : Option PixelColor)
    (hinside : ∀ q ∈ offsets, dst.outline.Contains (origin + q)) (hp : dst.outline.Contains p) :
    (offsets.foldl (fun fb q => if skip ≠ some (colour q) then fb.write (origin + q) (colour q) else fb)
      dst).getPixel p =
      if p - origin ∈ offsets ∧ skip ≠ some (colour (p - origin)) then colour (p - origin)
      else dst.getPixel p := by
  induction offsets generalizing dst with
  | nil => exact (if_neg fun h => List.not_mem_nil h.1).symm
  | cons q offsets ih =>
    have hrest := fun q' (hq' : q' ∈ offsets) => hinside q' (List.mem_cons_of_mem _ hq')
    have hq := hinside q List.mem_cons_self
    have hback : p = origin + q ↔ p - origin = q := by
      rw [Vector2D.ext_iff, Vector2D.ext_iff]
      dsimp only [Vector2D.add_x, Vector2D.add_y, Vector2D.sub_x, Vector2D.sub_y]
      omega
    rw [List.foldl_cons]
    by_cases hskip : skip ≠ some (colour q)
    · have hrest' : ∀ q' ∈ offsets,
          (dst.write (origin + q) (colour q)).outline.Contains (origin + q') := hrest
      rw [if_pos hskip, ih hrest' hp, FrameBuffer.write_getPixel _ (FrameBuffer.outline_contains.mp hp).1
        (FrameBuffer.outline_contains.mp hq).1]
      by_cases heq : p - origin = q
      · rw [heq, if_pos (hback.mpr heq), ite_self, if_pos ⟨List.mem_cons_self, hskip⟩]
      · rw [if_neg fun h => heq (hback.mp h)]
        simp only [List.mem_cons, heq, false_or]
    · rw [if_neg hskip, ih hrest hp]
      by_cases heq : p - origin = q
      · rw [heq, if_neg fun h => hskip h.2, if_neg fun h => hskip h.2]
      · simp only [List.mem_cons, heq, false_or]

/-- The pixels that the loops of `DrawTo` visit, relative to the intersection. -/
def drawnOffsets (dst : FrameBuffer) (r : Rectangle) : List Vector2D :=
  (Int.range (max 0 (0 - r.pos.y)) (min r.size.y (dst.verticalResolution - r.pos.y))).flatMap fun y =>
    (Int.range (max 0 (0 - r.pos.x)) (min r.size.x (dst.horizontalResolution - r.pos.x))).map
      fun x => ⟨x, y⟩

theorem mem_drawnOffsets {r : Rectangle} :
    q ∈ drawnOffsets dst r ↔ r.Contains (r.pos + q) ∧ dst.outline.Contains (r.pos + q) := by
  unfold drawnOffsets
  rw [List.mem_flatMap, FrameBuffer.outline_contains]
  unfold Rectangle.Contains
  dsimp only [Vector2D.add_x, Vector2D.add_y]
  constructor
  · rintro ⟨y, hy, hq⟩
    obtain ⟨x, hx, rfl⟩ := List.mem_map.mp hq
    rw [Int.mem_range_iff] at hx hy
    dsimp only
    omega
  · intro h
    exact ⟨q.y, Int.mem_range_iff.mpr (by omega),
      List.mem_map.mpr ⟨q.x, Int.mem_range_iff.mpr (by omega), rfl⟩⟩

theorem drawPixels_getPixel (blend : PixelColor → PixelColor → PixelColor) (hp : dst.outline.Contains p) :
    (w.drawPixels blend dst pos (Rectangle.inter ⟨pos, w.size⟩ area) false).getPixel p =
      if (Rectangle.Contains ⟨pos, w.size⟩ p ∧ area.Contains p) ∧
          w.transparentColor ≠ some (w.pixelAt (p - pos)) then w.pixelAt (p - pos)
      else dst.getPixel p := by
  have hcontains : (Rectangle.inter ⟨pos, w.size⟩ area).Contains p ↔
      Rectangle.Contains ⟨pos, w.size⟩ p ∧ area.Contains p := Rectangle.contains_inter
  generalize Rectangle.inter ⟨pos, w.size⟩ area = r at hcontains ⊢
  have hloops : w.drawPixels blend dst pos r false = (drawnOffsets dst r).foldl (fun fb q =>
      if w.transparentColor ≠ some (w.pixelAt (q + (r.pos - pos))) then
        fb.write (r.pos + q) (w.pixelAt (q + (r.pos - pos))) else fb) dst := by
    rw [drawnOffsets, List.foldl_flatMap]
    simp only [List.foldl_map]
    rfl
  have hoffset : r.pos + (p - r.pos) = p := by
    apply Vector2D.ext
    · show r.pos.x + (p.x - r.pos.x) = p.x
      omega
    · show r.pos.y + (p.y - r.pos.y) = p.y
      omega
  have hcolour : p - r.pos + (r.pos - pos) = p - pos := by
    apply Vector2D.ext
    · show p.x - r.pos.x + (r.pos.x - pos.x) = p.x - pos.x
      omega
    · show p.y - r.pos.y + (r.pos.y - pos.y) = p.y - pos.y
      omega
  rw [hloops, foldl_write_getPixel r.pos _ _ (fun q hq => (mem_drawnOffsets.mp hq).2) hp, hcolour]
  have hmem : p - r.pos ∈ drawnOffsets dst r ↔ Rectangle.Contains ⟨pos, w.size⟩ p ∧ area.Contains p := by
    rw [mem_drawnOffsets, hoffset, hcontains]
    exact and_iff_left hp
  simp only [hmem]

/-- What `DrawTo` without transparency makes of the visible pixels. -/
theorem drawTo_getPixel (blend : PixelColor → PixelColor → PixelColor)
    (hformat : dst.pixelFormat = w.shadowBuffer.pixelFormat) (hp : dst.outline.Contains p) :
    (w.drawTo blend dst pos area false).getPixel p =
      if Rectangle.Contains ⟨pos, w.size⟩ p ∧ area.Contains p then
        (w.shown (p - pos)).getD (dst.getPixel p)
      else dst.getPixel p := by
  unfold drawTo
  dsimp only
  split
  · rename_i hempty
    have hnone := Rectangle.not_contains_of_size (p := p) hempty
    rw [Rectangle.contains_inter] at hnone
    rw [if_neg hnone]
  · split
    · rename_i hkey
      rw [drawShadow_getPixel hformat hp, shown, hkey.1]
      rfl
    · rename_i hkey
      rw [drawPixels_getPixel blend hp]
      obtain ⟨tc, htc⟩ : ∃ tc, w.transparentColor = some tc :=
        Option.ne_none_iff_exists'.mp fun hnone => hkey ⟨hnone, rfl⟩
      rw [shown, htc]
      by_cases hin : Rectangle.Contains ⟨pos, w.size⟩ p ∧ area.Contains p
      · rw [if_pos hin]
        dsimp only
        by_cases hc : w.pixelAt (p - pos) = tc
        · rw [if_pos hc, if_neg fun h => h.2 (congrArg some hc.symm)]
          rfl
        · rw [if_neg hc, if_pos ⟨hin, fun h => hc (Option.some.inj h).symm⟩]
          rfl
      · rw [if_neg hin, if_neg fun h => hin h.1]

/-- Drawing changes pixels only. -/
theorem drawTo_shape (blend : PixelColor → PixelColor → PixelColor) (transparent : Bool) :
    (w.drawTo blend dst pos area transparent).SameShape dst := by
  unfold drawTo
  dsimp only
  split
  · exact .refl dst
  · split
    · exact FrameBuffer.copy_shape ..
    · unfold drawPixels
      apply FrameBuffer.SameShape.foldl
      intro fb y
      apply FrameBuffer.SameShape.foldl
      intro fb x
      dsimp only
      split
      · exact ⟨rfl, rfl⟩
      · exact .refl fb

end Window

end MikanSaos
