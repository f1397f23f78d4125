import Mathlib.Data.Int.Range
import MikanSaos.Error
import MikanSaos.Graphics.Geometry
import MikanSaos.Reasoning.CellWrites

/-!
# FrameBuffer — pixels in memory, line after line

A cell of `buffer` stands for the four bytes of a pixel; the two formats order the same three bytes
differently, so that only `Copy` between buffers looks at the format.
-/

open Reasoning

namespace MikanSaos

structure PixelColor where
  r : UInt8
  g : UInt8
  b : UInt8
  deriving DecidableEq, Repr

inductive PixelFormat where
  | kPixelRGBResv8BitPerColor | kPixelBGRResv8BitPerColor
  deriving DecidableEq, Repr

/-- A frame buffer with its configuration; a line is at least as long as the visible part of it. -/
structure FrameBuffer where
  pixelFormat : PixelFormat
  horizontalResolution : Nat
  verticalResolution : Nat
  pixelsPerScanLine : Nat
  buffer : Int → PixelColor
  resolution_le : horizontalResolution ≤ pixelsPerScanLine

namespace FrameBuffer

/-- `Initialize` with a buffer of its own. -/
def allocate (horizontalResolution verticalResolution : Nat) (pixelFormat : PixelFormat) : FrameBuffer :=
  ⟨pixelFormat, horizontalResolution, verticalResolution, horizontalResolution, fun _ => ⟨0, 0, 0⟩,
    Nat.le_refl _⟩

/-- `FrameBufferSize` -/
def size (fb : FrameBuffer) : Vector2D := ⟨fb.horizontalResolution, fb.verticalResolution⟩

def outline (fb : FrameBuffer) : Rectangle := ⟨⟨0, 0⟩, fb.size⟩

/-- `FrameAddrAt`, counted in pixels -/
def frameAddrAt (fb : FrameBuffer) (pos : Vector2D) : Int := fb.pixelsPerScanLine * pos.y + pos.x

def getPixel (fb : FrameBuffer) (pos : Vector2D) : PixelColor := fb.buffer (fb.frameAddrAt pos)

/-- `Write` of the buffer's writer. -/
def write (fb : FrameBuffer) (pos : Vector2D) (c : PixelColor) : FrameBuffer :=
  { fb with buffer := Function.update fb.buffer (fb.frameAddrAt pos) c }

/-- `memcpy` of `n` pixels from another buffer. -/
def memcpy (dstBuffer : Int → PixelColor) (dst : Int) (srcBuffer : Int → PixelColor) (src n : Int) :
    Int → PixelColor :=
  writeCells dstBuffer ((Int.range 0 n).map fun dx => (dst + dx, srcBuffer (src + dx)))

/-- The part of the destination that `Copy` writes. -/
def copyArea (dst : FrameBuffer) (dstPos : Vector2D) (src : FrameBuffer) (srcArea : Rectangle) :
    Rectangle :=
  (dst.outline.inter ⟨dstPos - srcArea.pos, src.size⟩).inter ⟨dstPos, srcArea.size⟩

def copy (dst : FrameBuffer) (dstPos : Vector2D) (src : FrameBuffer) (srcArea : Rectangle) :
    Error × FrameBuffer :=
  if dst.pixelFormat ≠ src.pixelFormat then (.kUnknownPixelFormat, dst)
  else
    let copyArea := dst.copyArea dstPos src srcArea
    let srcStartPos := copyArea.pos - (dstPos - srcArea.pos)
    let dstBuf := dst.frameAddrAt copyArea.pos
    let srcBuf := src.frameAddrAt srcStartPos
    let buffer := (Int.range 0 copyArea.size.y).foldl (fun buffer dy =>
      memcpy buffer (dstBuf + dst.pixelsPerScanLine * dy) src.buffer
        (srcBuf + src.pixelsPerScanLine * dy) copyArea.size.x) dst.buffer
    (.kSuccess, { dst with buffer := buffer })

/-- `memcpy` of `n` pixels within a buffer, pixel after pixel. -/
def moveRow (buffer : Int → PixelColor) (dst src n : Int) : Int → PixelColor :=
  ((Int.range 0 n).map fun dx => (dst + dx, src + dx)).foldl moveCell buffer

def move (fb : FrameBuffer) (dstPos : Vector2D) (src : Rectangle) : FrameBuffer :=
  if dstPos.y < src.pos.y then
    -- move up
    let dstBuf := fb.frameAddrAt dstPos
    let srcBuf := fb.frameAddrAt src.pos
    { fb with buffer := (Int.range 0 src.size.y).foldl (fun buffer y =>
        moveRow buffer (dstBuf + fb.pixelsPerScanLine * y) (srcBuf + fb.pixelsPerScanLine * y)
          src.size.x) fb.buffer }
  else
    -- move down
    let dstBuf := fb.frameAddrAt (dstPos + ⟨0, src.size.y - 1⟩)
    let srcBuf := fb.frameAddrAt (src.pos + ⟨0, src.size.y - 1⟩)
    { fb with buffer := (Int.range 0 src.size.y).foldl (fun buffer y =>
        moveRow buffer (dstBuf - fb.pixelsPerScanLine * y) (srcBuf - fb.pixelsPerScanLine * y)
          src.size.x) fb.buffer }

/-! ## Addresses -/

variable {fb dst src : FrameBuffer} {p q : Vector2D}

theorem outline_contains : fb.outline.Contains p ↔
    (0 ≤ p.x ∧ p.x < fb.horizontalResolution) ∧ 0 ≤ p.y ∧ p.y < fb.verticalResolution := by
  unfold Rectangle.Contains outline size
  dsimp only
  omega

/-- Pixels of a line have different addresses, and so have those of different lines. -/
theorem frameAddrAt_inj (hp : 0 ≤ p.x ∧ p.x < fb.horizontalResolution)
    (hq : 0 ≤ q.x ∧ q.x < fb.horizontalResolution) :
    fb.frameAddrAt p = fb.frameAddrAt q ↔ p = q := by
  have hle := fb.resolution_le
  refine ⟨fun heq => ?_, fun heq => by rw [heq]⟩
  unfold frameAddrAt at heq
  have hpx : (fb.pixelsPerScanLine * p.y + p.x) % fb.pixelsPerScanLine = p.x := by
    rw [Int.mul_add_emod_self_left]
    exact Int.emod_eq_of_lt hp.1 (by omega)
  have hqx : (fb.pixelsPerScanLine * q.y + q.x) % fb.pixelsPerScanLine = q.x := by
    rw [Int.mul_add_emod_self_left]
    exact Int.emod_eq_of_lt hq.1 (by omega)
  have hx : p.x = q.x := by rw [← hpx, ← hqx, heq]
  have hne : (fb.pixelsPerScanLine : Int) ≠ 0 := by omega
  have hy : p.y = q.y := Int.eq_of_mul_eq_mul_left hne (by omega)
  exact Vector2D.ext hx hy

/-- The address of a pixel in a row of an area. -/
theorem frameAddrAt_add (pos : Vector2D) (dx dy : Int) :
    fb.frameAddrAt pos + fb.pixelsPerScanLine * dy + dx = fb.frameAddrAt (pos + ⟨dx, dy⟩) := by
  unfold frameAddrAt
  dsimp only [Vector2D.add_x, Vector2D.add_y]
  rw [Int.mul_add]
  omega

theorem write_getPixel (c : PixelColor) (hp : 0 ≤ p.x ∧ p.x < fb.horizontalResolution)
    (hq : 0 ≤ q.x ∧ q.x < fb.horizontalResolution) :
    (fb.write q c).getPixel p = if p = q then c else fb.getPixel p := by
  show Function.update fb.buffer (fb.frameAddrAt q) c (fb.frameAddrAt p) = _
  rw [Function.update_apply]
  by_cases heq : p = q
  · rw [if_pos heq, if_pos (by rw [heq])]
  · rw [if_neg heq, if_neg fun h => heq ((frameAddrAt_inj hp hq).mp h)]
    rfl

/-! ## Copies between buffers -/

/-- The stores of a picture to all pixels of an area, row by row. -/
def areaWrites (fb : FrameBuffer) (area : Rectangle) (picture : Vector2D → PixelColor) :
    List (Int × PixelColor) :=
  (Int.range 0 area.size.y).flatMap fun dy => (Int.range 0 area.size.x).map fun dx =>
    (fb.frameAddrAt (area.pos + ⟨dx, dy⟩), picture (area.pos + ⟨dx, dy⟩))

theorem mem_areaWrites {area : Rectangle} {picture : Vector2D → PixelColor} {w : Int × PixelColor} :
    w ∈ fb.areaWrites area picture ↔ ∃ q, area.Contains q ∧ w = (fb.frameAddrAt q, picture q) := by
  unfold areaWrites
  rw [List.mem_flatMap]
  constructor
  · rintro ⟨dy, hdy, hw⟩
    obtain ⟨dx, hdx, rfl⟩ := List.mem_map.mp hw
    rw [Int.mem_range_iff] at hdx hdy
    refine ⟨area.pos + ⟨dx, dy⟩, ?_, rfl⟩
    unfold Rectangle.Contains
    dsimp only [Vector2D.add_x, Vector2D.add_y]
    omega
  · rintro ⟨q, ⟨⟨hx, hx'⟩, hy, hy'⟩, rfl⟩
    have hq : area.pos + ⟨q.x - area.pos.x, q.y - area.pos.y⟩ = q := by
      apply Vector2D.ext
      · show area.pos.x + (q.x - area.pos.x) = q.x
        omega
      · show area.pos.y + (q.y - area.pos.y) = q.y
        omega
    refine ⟨q.y - area.pos.y, Int.mem_range_iff.mpr (by omega), List.mem_map.mpr
      ⟨q.x - area.pos.x, Int.mem_range_iff.mpr (by omega), ?_⟩⟩
    rw [hq]

/-- Stores to an area of the outline change its pixels and no others. -/
theorem writeCells_area {area : Rectangle} (picture : Vector2D → PixelColor)
    (hinside : ∀ q, area.Contains q → fb.outline.Contains q) (hp : fb.outline.Contains p) :
    writeCells fb.buffer (fb.areaWrites area picture) (fb.frameAddrAt p) =
      if area.Contains p then picture p else fb.getPixel p := by
  have hsame : ∀ q, area.Contains q → fb.frameAddrAt q = fb.frameAddrAt p → q = p := by
    intro q hq heq
    exact (frameAddrAt_inj (outline_contains.mp (hinside q hq)).1 (outline_contains.mp hp).1).mp heq
  by_cases hin : area.Contains p
  · rw [if_pos hin]
    apply writeCells_of_mem
    · exact ⟨_, mem_areaWrites.mpr ⟨p, hin, rfl⟩, rfl⟩
    · intro w hw haddr
      obtain ⟨q, hq, rfl⟩ := mem_areaWrites.mp hw
      show picture q = picture p
      rw [hsame q hq haddr]
  · rw [if_neg hin]
    apply writeCells_of_ne
    intro w hw haddr
    obtain ⟨q, hq, rfl⟩ := mem_areaWrites.mp hw
    exact hin (hsame q hq haddr ▸ hq)

theorem contains_copyArea {dstPos : Vector2D} {srcArea : Rectangle} :
    (dst.copyArea dstPos src srcArea).Contains p ↔
      (dst.outline.Contains p ∧ src.outline.Contains (p - (dstPos - srcArea.pos))) ∧
        Rectangle.Contains ⟨dstPos, srcArea.size⟩ p := by
  unfold copyArea
  rw [Rectangle.contains_inter, Rectangle.contains_inter]
  apply and_congr_left
  intro _
  apply and_congr_right
  intro _
  unfold Rectangle.Contains outline
  dsimp only [Vector2D.sub_x, Vector2D.sub_y]
  omega

theorem copyRows_eq (area : Rectangle) (shift : Vector2D) :
    (Int.range 0 area.size.y).foldl (fun buffer dy =>
        memcpy buffer (dst.frameAddrAt area.pos + dst.pixelsPerScanLine * dy) src.buffer
          (src.frameAddrAt (area.pos - shift) + src.pixelsPerScanLine * dy) area.size.x) dst.buffer =
      writeCells dst.buffer (dst.areaWrites area fun q => src.getPixel (q - shift)) := by
  have hrow : ∀ buffer dy, memcpy buffer (dst.frameAddrAt area.pos + dst.pixelsPerScanLine * dy)
      src.buffer (src.frameAddrAt (area.pos - shift) + src.pixelsPerScanLine * dy) area.size.x =
        writeCells buffer ((Int.range 0 area.size.x).map fun dx =>
          (dst.frameAddrAt (area.pos + ⟨dx, dy⟩), src.getPixel (area.pos + ⟨dx, dy⟩ - shift))) := by
    intro buffer dy
    have hcell : ∀ dx, (dst.frameAddrAt area.pos + dst.pixelsPerScanLine * dy + dx,
        src.buffer (src.frameAddrAt (area.pos - shift) + src.pixelsPerScanLine * dy + dx)) =
          (dst.frameAddrAt (area.pos + ⟨dx, dy⟩), src.getPixel (area.pos + ⟨dx, dy⟩ - shift)) := by
      intro dx
      have hshift : area.pos - shift + ⟨dx, dy⟩ = area.pos + ⟨dx, dy⟩ - shift := by
        apply Vector2D.ext
        · show area.pos.x - shift.x + dx = area.pos.x + dx - shift.x
          omega
        · show area.pos.y - shift.y + dy = area.pos.y + dy - shift.y
          omega
      rw [frameAddrAt_add, frameAddrAt_add, hshift]
      rfl
    rw [memcpy, List.map_congr_left fun dx _ => hcell dx]
  rw [areaWrites, writeCells, List.foldl_flatMap]
  exact congrArg (fun f => List.foldl f dst.buffer _) (funext fun buffer => funext (hrow buffer))

/-- What `Copy` makes of the visible pixels. -/
theorem copy_getPixel (hformat : dst.pixelFormat = src.pixelFormat) (dstPos : Vector2D)
    (srcArea : Rectangle) (hp : dst.outline.Contains p) :
    (dst.copy dstPos src srcArea).2.getPixel p =
      if (dst.copyArea dstPos src srcArea).Contains p then src.getPixel (p - (dstPos - srcArea.pos))
      else dst.getPixel p := by
  have hinside : ∀ q, (dst.copyArea dstPos src srcArea).Contains q → dst.outline.Contains q :=
    fun q hq => (contains_copyArea.mp hq).1.1
  rw [← writeCells_area (fun q => src.getPixel (q - (dstPos - srcArea.pos))) hinside hp, ← copyRows_eq,
    copy, if_neg fun hne => hne hformat]
  rfl

/-- The same but for the pixels. -/
structure SameShape (fb fb' : FrameBuffer) : Prop where
  outline : fb.outline = fb'.outline
  pixelFormat : fb.pixelFormat = fb'.pixelFormat

namespace SameShape

theorem refl (fb : FrameBuffer) : fb.SameShape fb := ⟨rfl, rfl⟩

theorem trans {fb fb' fb'' : FrameBuffer} (h : fb.SameShape fb') (h' : fb'.SameShape fb'') :
    fb.SameShape fb'' :=
  ⟨h.outline.trans h'.outline, h.pixelFormat.trans h'.pixelFormat⟩

theorem foldl {β : Type} {step : FrameBuffer → β → FrameBuffer} (hstep : ∀ fb b, (step fb b).SameShape fb)
    (fb : FrameBuffer) (l : List β) : (l.foldl step fb).SameShape fb := by
  induction l generalizing fb with
  | nil => exact .refl fb
  | cons b l ih => exact (ih _).trans (hstep fb b)

end SameShape

theorem copy_shape (dstPos : Vector2D) (srcArea : Rectangle) :
    (dst.copy dstPos src srcArea).2.SameShape dst := by
  unfold copy
  split <;> exact ⟨rfl, rfl⟩

end FrameBuffer

end MikanSaos
