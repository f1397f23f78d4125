import MikanSaos.Graphics.FrameBuffer

/-!
# ClippedCopy — what `Copy` does to the memory of the two buffers

The source's outline and area are brought into the coordinates of the destination, and the three rectangles are
intersected two at a time.  Rectangles that only touch, or do not meet at all, give no rows or empty ones.
Coordinates and offsets are exact: their sums are taken not to overflow.
-/

open Reasoning

namespace MikanSaos

/-- A call of `memcpy`, with its addresses counted in bytes from the first byte of either buffer. -/
structure MemcpyCall where
  dst : Int
  src : Int
  n : Int
  deriving DecidableEq

namespace FrameBuffer

def kBytesPerPixel : Int := 4

/-- The calls of `Copy`, in order. -/
def copyCalls (dst : FrameBuffer) (dstPos : Vector2D) (src : FrameBuffer) (srcArea : Rectangle) :
    List MemcpyCall :=
  if dst.pixelFormat ≠ src.pixelFormat then []
  else
    let copyArea := dst.copyArea dstPos src srcArea
    let srcStartPos := copyArea.pos - (dstPos - srcArea.pos)
    (Int.range 0 copyArea.size.y).map fun dy =>
      ⟨kBytesPerPixel * (dst.frameAddrAt copyArea.pos + dst.pixelsPerScanLine * dy),
        kBytesPerPixel * (src.frameAddrAt srcStartPos + src.pixelsPerScanLine * dy),
        kBytesPerPixel * copyArea.size.x⟩

/-- `byte` is one of the bytes of a pixel of the buffer; the padding of a line has none. -/
def PixelByte (fb : FrameBuffer) (byte : Int) : Prop :=
  ∃ p, fb.outline.Contains p ∧ kBytesPerPixel * fb.frameAddrAt p ≤ byte ∧
    byte < kBytesPerPixel * fb.frameAddrAt p + kBytesPerPixel

/-- The call has a length, and stays among the pixels of both buffers. -/
structure CallInside (dst src : FrameBuffer) (call : MemcpyCall) : Prop where
  length : 0 ≤ call.n
  dst : ∀ byte, call.dst ≤ byte → byte < call.dst + call.n → dst.PixelByte byte
  src : ∀ byte, call.src ≤ byte → byte < call.src + call.n → src.PixelByte byte

variable {fb dst src : FrameBuffer} {dstPos p pos : Vector2D} {srcArea : Rectangle}

/-- All pixels lie in the memory of the buffer. -/
theorem PixelByte.inside {byte : Int} (h : fb.PixelByte byte) :
    0 ≤ byte ∧ byte < kBytesPerPixel * (fb.pixelsPerScanLine * fb.verticalResolution) := by
  obtain ⟨p, hp, hlo, hhi⟩ := h
  rw [outline_contains] at hp
  have hle := fb.resolution_le
  have hrow : (fb.pixelsPerScanLine : Int) * p.y + fb.pixelsPerScanLine ≤
      fb.pixelsPerScanLine * fb.verticalResolution := by
    have hmul := Int.mul_le_mul_of_nonneg_left (show p.y + 1 ≤ fb.verticalResolution by omega)
      (show (0 : Int) ≤ fb.pixelsPerScanLine by omega)
    rw [Int.mul_add, Int.mul_one] at hmul
    exact hmul
  have hstart : (0 : Int) ≤ fb.pixelsPerScanLine * p.y := Int.mul_nonneg (by omega) hp.2.1
  unfold frameAddrAt kBytesPerPixel at *
  omega

/-- The bytes of a part of a row are those of its pixels. -/
theorem pixelByte_of_row {n byte : Int}
    (hrow : ∀ dx, 0 ≤ dx → dx < n → fb.outline.Contains (pos + ⟨dx, 0⟩))
    (hlo : kBytesPerPixel * fb.frameAddrAt pos ≤ byte)
    (hhi : byte < kBytesPerPixel * fb.frameAddrAt pos + kBytesPerPixel * n) : fb.PixelByte byte := by
  unfold kBytesPerPixel at hlo hhi
  -- the pixel of the byte, counted from the start of the part
  have haddr : fb.frameAddrAt (pos + ⟨byte / 4 - fb.frameAddrAt pos, 0⟩) = byte / 4 := by
    rw [← frameAddrAt_add]
    omega
  refine ⟨pos + ⟨byte / 4 - fb.frameAddrAt pos, 0⟩, hrow _ (by omega) (by omega), ?_, ?_⟩
  · rw [haddr]
    unfold kBytesPerPixel
    omega
  · rw [haddr]
    unfold kBytesPerPixel
    omega

theorem mul_bytesPerPixel_div (n : Int) : kBytesPerPixel * n / kBytesPerPixel = n :=
  Int.mul_ediv_cancel_left n (by decide)

theorem copyArea_sized (dst src : FrameBuffer) (dstPos : Vector2D) (hsize : srcArea.Sized) :
    (dst.copyArea dstPos src srcArea).Sized := by
  have houtline : ∀ (fb : FrameBuffer) (pos : Vector2D), Rectangle.Sized ⟨pos, fb.size⟩ := fun fb pos =>
    ⟨Int.natCast_nonneg _, Int.natCast_nonneg _⟩
  exact ((houtline dst ⟨0, 0⟩).inter (houtline src _)).inter hsize

/-- The pixel of the source for a pixel of the destination. -/
theorem sub_shift (p dstPos srcPos : Vector2D) : p - (dstPos - srcPos) = p - dstPos + srcPos := by
  apply Vector2D.ext
  · show p.x - (dstPos.x - srcPos.x) = p.x - dstPos.x + srcPos.x
    omega
  · show p.y - (dstPos.y - srcPos.y) = p.y - dstPos.y + srcPos.y
    omega

/-- The pixels of the area that `Copy` writes: those of which the source has the pixel to copy. -/
theorem contains_copyArea_iff : (dst.copyArea dstPos src srcArea).Contains p ↔
    dst.outline.Contains p ∧ src.outline.Contains (p - dstPos + srcArea.pos) ∧
      srcArea.Contains (p - dstPos + srcArea.pos) := by
  rw [contains_copyArea, sub_shift, and_assoc]
  apply and_congr_right
  intro _
  apply and_congr_right
  intro _
  unfold Rectangle.Contains
  dsimp only [Vector2D.add_x, Vector2D.add_y, Vector2D.sub_x, Vector2D.sub_y]
  omega

/-- Every call of `Copy` is for a row of the area. -/
theorem copyCalls_inside (hformat : dst.pixelFormat = src.pixelFormat) (hsize : srcArea.Sized)
    {call : MemcpyCall} (hcall : call ∈ dst.copyCalls dstPos src srcArea) : CallInside dst src call := by
  have hsized := copyArea_sized dst src dstPos hsize
  rw [copyCalls, if_neg fun hne => hne hformat] at hcall
  obtain ⟨dy, hdy, rfl⟩ := List.mem_map.mp hcall
  rw [Int.mem_range_iff] at hdy
  have hpixel : ∀ dx, 0 ≤ dx → dx < (dst.copyArea dstPos src srcArea).size.x →
      (dst.copyArea dstPos src srcArea).Contains ((dst.copyArea dstPos src srcArea).pos + ⟨dx, dy⟩) := by
    intro dx hlo hhi
    unfold Rectangle.Contains
    dsimp only [Vector2D.add_x, Vector2D.add_y]
    omega
  -- the row starts at the pixel in column 0 of the area
  have hstart : ∀ (fb : FrameBuffer) (pos : Vector2D),
      fb.frameAddrAt pos + fb.pixelsPerScanLine * dy = fb.frameAddrAt (pos + ⟨0, dy⟩) := by
    intro fb pos
    rw [← frameAddrAt_add, Int.add_zero]
  have hcolumn : ∀ (pos : Vector2D) (dx : Int), pos + ⟨0, dy⟩ + ⟨dx, 0⟩ = pos + ⟨dx, dy⟩ := by
    intro pos dx
    apply Vector2D.ext
    · show pos.x + 0 + dx = pos.x + dx
      omega
    · show pos.y + dy + 0 = pos.y + dy
      omega
  refine ⟨?_, fun byte hlo hhi => ?_, fun byte hlo hhi => ?_⟩
  · -- an empty area has width 0, not a negative one
    have hx := hsized.1
    show 0 ≤ kBytesPerPixel * (dst.copyArea dstPos src srcArea).size.x
    unfold kBytesPerPixel
    omega
  · dsimp only at hlo hhi
    rw [hstart] at hlo hhi
    apply pixelByte_of_row _ hlo hhi
    intro dx hdx hdx'
    rw [hcolumn]
    exact (contains_copyArea.mp (hpixel dx hdx hdx')).1.1
  · dsimp only at hlo hhi
    rw [hstart] at hlo hhi
    apply pixelByte_of_row _ hlo hhi
    intro dx hdx hdx'
    rw [hcolumn]
    have hsrc := (contains_copyArea.mp (hpixel dx hdx hdx')).1.2
    -- `src_start_pos` plus an offset is the pixel of the destination, shifted
    have hsame : (dst.copyArea dstPos src srcArea).pos - (dstPos - srcArea.pos) + ⟨dx, dy⟩ =
        (dst.copyArea dstPos src srcArea).pos + ⟨dx, dy⟩ - (dstPos - srcArea.pos) := by
      apply Vector2D.ext
      · dsimp only [Vector2D.add_x, Vector2D.sub_x]
        omega
      · dsimp only [Vector2D.add_y, Vector2D.sub_y]
        omega
    rw [hsame]
    exact hsrc

/-- The calls are what `copy` does to the pixels. -/
theorem copy_buffer_eq_calls (dst src : FrameBuffer) (dstPos : Vector2D) (srcArea : Rectangle) :
    (dst.copy dstPos src srcArea).2.buffer = (dst.copyCalls dstPos src srcArea).foldl (fun buffer call =>
      memcpy buffer (call.dst / kBytesPerPixel) src.buffer (call.src / kBytesPerPixel)
        (call.n / kBytesPerPixel)) dst.buffer := by
  unfold copy copyCalls
  split
  · rfl
  · dsimp only
    rw [List.foldl_map]
    simp only [mul_bytesPerPixel_div]

/-- Cells that are no pixels of the area keep what they hold. -/
theorem copy_untouched {cell : Int}
    (hcell : ∀ p, (dst.copyArea dstPos src srcArea).Contains p → dst.frameAddrAt p ≠ cell) :
    (dst.copy dstPos src srcArea).2.buffer cell = dst.buffer cell := by
  unfold copy
  split
  · rfl
  · dsimp only
    rw [copyRows_eq]
    apply writeCells_of_ne
    intro w hw
    obtain ⟨q, hq, rfl⟩ := mem_areaWrites.mp hw
    exact hcell q hq

/-- `Copy` sets the pixel `p` of the destination. -/
def Copied (dst : FrameBuffer) (dstPos : Vector2D) (src : FrameBuffer) (srcArea : Rectangle)
    (p : Vector2D) : Prop :=
  dst.outline.Contains p ∧ src.outline.Contains (p - dstPos + srcArea.pos) ∧
    srcArea.Contains (p - dstPos + srcArea.pos)

/-- **`Copy` is clipped exactly.**  Between buffers of one format, for every position and every area of the
source, anywhere: the pixels of the destination that have a pixel of the area in the source get it, no other
cell of the destination's memory changes, and no call of `memcpy` leaves the pixels of the buffers. -/
theorem copy_clipped (hformat : dst.pixelFormat = src.pixelFormat) (dstPos : Vector2D)
    (hsize : srcArea.Sized) :
    (dst.copy dstPos src srcArea).1 = .kSuccess ∧
    (∀ p, dst.Copied dstPos src srcArea p →
      (dst.copy dstPos src srcArea).2.getPixel p = src.getPixel (p - dstPos + srcArea.pos)) ∧
    (∀ cell, (∀ p, dst.Copied dstPos src srcArea p → dst.frameAddrAt p ≠ cell) →
      (dst.copy dstPos src srcArea).2.buffer cell = dst.buffer cell) ∧
    ∀ call ∈ dst.copyCalls dstPos src srcArea, CallInside dst src call := by
  refine ⟨?_, fun p hp => ?_, fun cell hcell => ?_, fun call hcall => copyCalls_inside hformat hsize hcall⟩
  · rw [copy, if_neg fun hne => hne hformat]
  · have harea := contains_copyArea_iff.mpr hp
    rw [copy_getPixel hformat dstPos srcArea hp.1, if_pos harea, sub_shift]
  · exact copy_untouched fun p hp => hcell p (contains_copyArea_iff.mp hp)

/-- A buffer of one line of 8 pixels, copied 2 to the left: 6 pixels come in. -/
theorem copy_clipped_left :
    (FrameBuffer.allocate 8 1 .kPixelRGBResv8BitPerColor).copyCalls ⟨-2, 0⟩
      (FrameBuffer.allocate 8 1 .kPixelRGBResv8BitPerColor) ⟨⟨0, 0⟩, ⟨8, 1⟩⟩ = [⟨0, 8, 24⟩] ∧
    ∀ call ∈ (FrameBuffer.allocate 8 1 .kPixelRGBResv8BitPerColor).copyCalls ⟨-2, 0⟩
      (FrameBuffer.allocate 8 1 .kPixelRGBResv8BitPerColor) ⟨⟨0, 0⟩, ⟨8, 1⟩⟩,
      CallInside (FrameBuffer.allocate 8 1 .kPixelRGBResv8BitPerColor)
        (FrameBuffer.allocate 8 1 .kPixelRGBResv8BitPerColor) call :=
  ⟨by decide, (copy_clipped rfl ⟨-2, 0⟩ ⟨by decide, by decide⟩).2.2.2⟩

end FrameBuffer

end MikanSaos
