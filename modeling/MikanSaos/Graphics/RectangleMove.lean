import MikanSaos.Graphics.ClippedCopy
import MikanSaos.Graphics.ShadowBuffer

/-!
# RectangleMove — `Move` as a move of a rectangle

Rows are copied from the top when the rectangle goes up, and otherwise from the bottom, so that no row is
overwritten before it is read.  A row that moves within its line is one `memcpy` between its own pixels.
-/

open Reasoning

namespace MikanSaos

/-- `memcpy` is defined between ranges that do not overlap. -/
def MemcpyCall.Apart (call : MemcpyCall) : Prop :=
  call.dst + call.n ≤ call.src ∨ call.src + call.n ≤ call.dst

namespace FrameBuffer

/-- The calls of `Move`, in order; both addresses are in the one buffer. -/
def moveCalls (fb : FrameBuffer) (dstPos : Vector2D) (src : Rectangle) : List MemcpyCall :=
  if dstPos.y < src.pos.y then
    let dstBuf := fb.frameAddrAt dstPos
    let srcBuf := fb.frameAddrAt src.pos
    (Int.range 0 src.size.y).map fun y =>
      ⟨kBytesPerPixel * (dstBuf + fb.pixelsPerScanLine * y),
        kBytesPerPixel * (srcBuf + fb.pixelsPerScanLine * y), kBytesPerPixel * src.size.x⟩
  else
    let dstBuf := fb.frameAddrAt (dstPos + ⟨0, src.size.y - 1⟩)
    let srcBuf := fb.frameAddrAt (src.pos + ⟨0, src.size.y - 1⟩)
    (Int.range 0 src.size.y).map fun y =>
      ⟨kBytesPerPixel * (dstBuf - fb.pixelsPerScanLine * y),
        kBytesPerPixel * (srcBuf - fb.pixelsPerScanLine * y), kBytesPerPixel * src.size.x⟩

/-- A rectangle of pixels of the buffer. -/
def InsideBuffer (fb : FrameBuffer) (r : Rectangle) : Prop :=
  r.Sized ∧ (0 ≤ r.pos.x ∧ r.pos.x + r.size.x ≤ fb.horizontalResolution) ∧
    0 ≤ r.pos.y ∧ r.pos.y + r.size.y ≤ fb.verticalResolution

/-- `d` is the place of a pixel in a rectangle of the size. -/
def InSize (size d : Vector2D) : Prop := (0 ≤ d.x ∧ d.x < size.x) ∧ 0 ≤ d.y ∧ d.y < size.y

/-- What `Move` is for. -/
structure MovesRectangle (fb : FrameBuffer) (dstPos : Vector2D) (src : Rectangle) : Prop where
  moved : ∀ d, InSize src.size d → (fb.move dstPos src).getPixel (dstPos + d) = fb.getPixel (src.pos + d)
  untouched : ∀ cell, (∀ d, InSize src.size d → fb.frameAddrAt (dstPos + d) ≠ cell) →
    (fb.move dstPos src).buffer cell = fb.buffer cell
  apart : ∀ call ∈ fb.moveCalls dstPos src, call.Apart

/-- No row is moved within its line by less than its length. -/
def RowsApart (dstPos : Vector2D) (src : Rectangle) : Prop :=
  src.size.y = 0 ∨ dstPos.y ≠ src.pos.y ∨ dstPos.x + src.size.x ≤ src.pos.x ∨ src.pos.x + src.size.x ≤ dstPos.x

variable {fb : FrameBuffer} {dstPos : Vector2D} {src : Rectangle}

/-! ## The rows -/

/-- In either direction a call is for two rows at the same place of the two rectangles. -/
theorem mem_moveCalls {call : MemcpyCall} : call ∈ fb.moveCalls dstPos src ↔ ∃ y, (0 ≤ y ∧ y < src.size.y) ∧
    call = ⟨kBytesPerPixel * fb.frameAddrAt (dstPos + ⟨0, y⟩), kBytesPerPixel * fb.frameAddrAt (src.pos + ⟨0, y⟩),
      kBytesPerPixel * src.size.x⟩ := by
  have hdown : ∀ (pos : Vector2D) (y : Int), fb.frameAddrAt pos + fb.pixelsPerScanLine * y =
      fb.frameAddrAt (pos + ⟨0, y⟩) := by
    intro pos y
    rw [← frameAddrAt_add, Int.add_zero]
  have hup : ∀ (pos : Vector2D) (y : Int), fb.frameAddrAt (pos + ⟨0, src.size.y - 1⟩) -
      fb.pixelsPerScanLine * y = fb.frameAddrAt (pos + ⟨0, src.size.y - 1 - y⟩) := by
    intro pos y
    rw [← hdown, ← hdown, Int.mul_sub _ (src.size.y - 1) y]
    omega
  unfold moveCalls
  split
  · simp only [List.mem_map, Int.mem_range_iff, hdown, eq_comm (b := call)]
  · simp only [List.mem_map, Int.mem_range_iff, hup, eq_comm (b := call)]
    constructor
    · rintro ⟨y, hy, rfl⟩
      exact ⟨src.size.y - 1 - y, by omega, rfl⟩
    · rintro ⟨y, hy, rfl⟩
      refine ⟨src.size.y - 1 - y, by omega, ?_⟩
      rw [show src.size.y - 1 - (src.size.y - 1 - y) = y by omega]

/-- Parts of two lines, one above the other. -/
theorem frameAddrAt_below {p q : Vector2D} {width : Int} (hp : 0 ≤ p.x ∧ p.x + width ≤ fb.horizontalResolution)
    (hq : 0 ≤ q.x) (hlt : p.y < q.y) : fb.frameAddrAt p + width ≤ fb.frameAddrAt q := by
  have hle := fb.resolution_le
  have hline := Int.mul_le_mul_of_nonneg_left (show p.y + 1 ≤ q.y by omega)
    (show (0 : Int) ≤ fb.pixelsPerScanLine by omega)
  rw [Int.mul_add, Int.mul_one] at hline
  unfold frameAddrAt
  omega

theorem apart_iff (hsrc : fb.InsideBuffer src) (hdst : fb.InsideBuffer ⟨dstPos, src.size⟩) :
    (∀ call ∈ fb.moveCalls dstPos src, call.Apart) ↔ RowsApart dstPos src := by
  obtain ⟨hsize, hsrcx, -⟩ := hsrc
  obtain ⟨-, hdstx, -⟩ := hdst
  dsimp only at hdstx
  unfold Rectangle.Sized at hsize
  constructor
  · intro hapart
    by_contra hrows
    unfold RowsApart at hrows
    -- the first row of a rectangle that moves within its lines
    have hcall := hapart _ (mem_moveCalls.mpr ⟨0, by omega, rfl⟩)
    unfold MemcpyCall.Apart kBytesPerPixel frameAddrAt at hcall
    dsimp only [Vector2D.add_x, Vector2D.add_y] at hcall
    have hy : dstPos.y = src.pos.y := by omega
    rw [hy] at hcall
    omega
  · intro hrows call hcall
    obtain ⟨y, hy, rfl⟩ := mem_moveCalls.mp hcall
    unfold MemcpyCall.Apart kBytesPerPixel
    dsimp only
    -- rows of different lines are apart, whatever their columns
    rcases lt_trichotomy dstPos.y src.pos.y with hlt | heq | hgt
    · have hbelow : fb.frameAddrAt (dstPos + ⟨0, y⟩) + src.size.x ≤ fb.frameAddrAt (src.pos + ⟨0, y⟩) :=
        frameAddrAt_below (by dsimp; omega) (by dsimp; omega) (by dsimp; omega)
      omega
    · -- on one line, the columns are apart
      have hcolumns : dstPos.x + src.size.x ≤ src.pos.x ∨ src.pos.x + src.size.x ≤ dstPos.x := by
        unfold RowsApart at hrows
        omega
      unfold frameAddrAt
      dsimp only [Vector2D.add_x, Vector2D.add_y]
      rw [heq]
      omega
    · have hbelow : fb.frameAddrAt (src.pos + ⟨0, y⟩) + src.size.x ≤ fb.frameAddrAt (dstPos + ⟨0, y⟩) :=
        frameAddrAt_below (by dsimp; omega) (by dsimp; omega) (by dsimp; omega)
      omega

/-- The calls are what `move` does to the buffer. -/
theorem move_buffer_eq_calls (fb : FrameBuffer) (dstPos : Vector2D) (src : Rectangle) :
    (fb.move dstPos src).buffer = (fb.moveCalls dstPos src).foldl (fun buffer call =>
      moveRow buffer (call.dst / kBytesPerPixel) (call.src / kBytesPerPixel) (call.n / kBytesPerPixel))
        fb.buffer := by
  unfold move moveCalls
  split
  · dsimp only
    rw [List.foldl_map]
    simp only [mul_bytesPerPixel_div]
  · dsimp only
    rw [List.foldl_map]
    simp only [mul_bytesPerPixel_div]

/-! ## The pixels -/

theorem product_pairwise {m n : Int} : (Int.range 0 m ×ˢ Int.range 0 n).Pairwise fun d d' => d.1 ≤ d'.1 := by
  have hproduct : Int.range 0 m ×ˢ Int.range 0 n =
      (Int.range 0 m).flatMap fun y => (Int.range 0 n).map (Prod.mk y) := rfl
  have hrange : (Int.range 0 m).Pairwise (· < ·) := by
    unfold Int.range
    rw [List.pairwise_map]
    exact List.pairwise_lt_range.imp fun hlt => by omega
  rw [hproduct, List.pairwise_flatMap]
  constructor
  · intro y _
    rw [List.pairwise_map]
    exact List.pairwise_of_forall fun _ _ => le_rfl
  · refine hrange.imp fun {y y'} hlt d hd d' hd' => ?_
    obtain ⟨_, _, rfl⟩ := List.mem_map.mp hd
    obtain ⟨_, _, rfl⟩ := List.mem_map.mp hd'
    exact hlt.le

/-- The order in which `Move` goes through the rows. -/
def moveOrder (dstPos : Vector2D) (src : Rectangle) : Int → Int :=
  if dstPos.y < src.pos.y then fun y => y else fun y => src.size.y - 1 - y

theorem rowOrder_moveOrder (dstPos : Vector2D) (src : Rectangle) : RowOrder src.size.y (moveOrder dstPos src) := by
  unfold moveOrder
  split
  · exact rowOrder_id _
  · exact rowOrder_reverse _

/-- No pixel is overwritten before it has been read. -/
theorem moves_pairwise (hsrc : fb.InsideBuffer src) (hdst : fb.InsideBuffer ⟨dstPos, src.size⟩)
    (hrows : RowsApart dstPos src) :
    (fb.moves dstPos src (moveOrder dstPos src)).Pairwise fun m m' => m.1 ≠ m'.2 := by
  obtain ⟨hsize, hsrcx, -⟩ := hsrc
  obtain ⟨-, hdstx, -⟩ := hdst
  dsimp only at hdstx
  unfold moves
  rw [List.pairwise_map]
  refine product_pairwise.imp_of_mem fun {d d'} hd hd' hle heq => ?_
  rw [List.mem_product, Int.mem_range_iff, Int.mem_range_iff] at hd hd'
  dsimp only at heq
  rw [frameAddrAt_inj (by dsimp; omega) (by dsimp; omega), Vector2D.ext_iff] at heq
  obtain ⟨hx, hy⟩ := heq
  dsimp only [Vector2D.add_x, Vector2D.add_y] at hx hy
  unfold RowsApart at hrows
  unfold moveOrder at hy
  split at hy
  · -- upwards, later rows are lower
    dsimp only at hy
    omega
  · -- downwards they are higher, and within one line the columns are apart
    dsimp only at hy
    omega

/-- **When `Move` moves the rectangle.**  For two rectangles of one size in the buffer, whatever they overlap:
every pixel arrives, no other cell changes and every `memcpy` is defined, exactly when no row moves within its own
line by less than its length. -/
theorem movesRectangle_iff (hsrc : fb.InsideBuffer src) (hdst : fb.InsideBuffer ⟨dstPos, src.size⟩) :
    fb.MovesRectangle dstPos src ↔ RowsApart dstPos src := by
  rw [← apart_iff hsrc hdst]
  constructor
  · exact fun h => h.apart
  intro hcalls
  have hrow := rowOrder_moveOrder dstPos src
  have hbuffer : (fb.move dstPos src).buffer = writeCells fb.buffer
      ((fb.moves dstPos src (moveOrder dstPos src)).map fun m => (m.1, fb.buffer m.2)) := by
    rw [move_buffer]
    exact foldl_moveCell_eq_writeCells (moves_pairwise hsrc hdst ((apart_iff hsrc hdst).mp hcalls))
  obtain ⟨-, hdstx, -⟩ := hdst
  dsimp only at hdstx
  refine ⟨fun d hd => ?_, fun cell hcell => ?_, hcalls⟩
  · show (fb.move dstPos src).buffer ((fb.move dstPos src).frameAddrAt (dstPos + d)) = _
    rw [move_frameAddrAt, hbuffer]
    apply writeCells_of_mem
    · exact ⟨_, List.mem_map_of_mem ((mem_moves hrow).mpr ⟨d, hd.1, hd.2, rfl⟩), rfl⟩
    · -- no other pixel of the source goes to this one
      intro w hw haddr
      obtain ⟨m, hm, rfl⟩ := List.mem_map.mp hw
      obtain ⟨d', hx, hy, rfl⟩ := (mem_moves hrow).mp hm
      unfold InSize at hd
      dsimp only at haddr ⊢
      rw [frameAddrAt_inj (by dsimp; omega) (by dsimp; omega), Vector2D.ext_iff] at haddr
      dsimp only [Vector2D.add_x, Vector2D.add_y] at haddr
      have hsame : d' = d := Vector2D.ext (by omega) (by omega)
      rw [hsame]
      rfl
  · rw [hbuffer]
    apply writeCells_of_ne
    intro w hw
    obtain ⟨m, hm, rfl⟩ := List.mem_map.mp hw
    obtain ⟨d, hx, hy, rfl⟩ := (mem_moves hrow).mp hm
    exact hcell d ⟨hx, hy⟩

/-- Two lines of a buffer go up by one line. -/
theorem movesRectangle_up : (FrameBuffer.allocate 4 3 .kPixelRGBResv8BitPerColor).MovesRectangle ⟨0, 0⟩
    ⟨⟨0, 1⟩, ⟨4, 2⟩⟩ := by
  refine (movesRectangle_iff ?_ ?_).mpr (.inr (.inl (by decide))) <;>
    exact ⟨⟨by decide, by decide⟩, by decide, by decide⟩

/-- A row of 4 pixels moves by one pixel: the ranges of its `memcpy` have 12 bytes in common. -/
theorem move_within_line :
    (FrameBuffer.allocate 8 1 .kPixelRGBResv8BitPerColor).InsideBuffer ⟨⟨0, 0⟩, ⟨4, 1⟩⟩ ∧
    (FrameBuffer.allocate 8 1 .kPixelRGBResv8BitPerColor).InsideBuffer ⟨⟨1, 0⟩, ⟨4, 1⟩⟩ ∧
    (FrameBuffer.allocate 8 1 .kPixelRGBResv8BitPerColor).moveCalls ⟨1, 0⟩ ⟨⟨0, 0⟩, ⟨4, 1⟩⟩ = [⟨4, 0, 16⟩] ∧
    ¬ (FrameBuffer.allocate 8 1 .kPixelRGBResv8BitPerColor).MovesRectangle ⟨1, 0⟩ ⟨⟨0, 0⟩, ⟨4, 1⟩⟩ := by
  have hcalls : (FrameBuffer.allocate 8 1 .kPixelRGBResv8BitPerColor).moveCalls ⟨1, 0⟩ ⟨⟨0, 0⟩, ⟨4, 1⟩⟩ =
      [⟨4, 0, 16⟩] := by decide
  refine ⟨⟨⟨by decide, by decide⟩, by decide, by decide⟩, ⟨⟨by decide, by decide⟩, by decide, by decide⟩, hcalls,
    fun h => ?_⟩
  have hcall := h.apart ⟨4, 0, 16⟩ (by rw [hcalls]; exact List.mem_cons_self)
  exact absurd hcall (by unfold MemcpyCall.Apart; decide)

end FrameBuffer

end MikanSaos
