import Mathlib.Data.List.ProdSigma
import MikanSaos.Graphics.Window
import MikanSaos.Reasoning.Reach

/-!
# ShadowBuffer — the two copies of a window's picture

`Write` changes both copies and `Move` only the shadow buffer, so that they agree as long as moves change
nothing.
-/

open Reasoning

namespace MikanSaos

/-! ## Moves within a buffer -/

namespace FrameBuffer

variable {fb : FrameBuffer} {dstPos : Vector2D} {src : Rectangle} {row : Int → Int}

/-- The addresses between which `Move` copies, with the rows in the order of `row`. -/
def moves (fb : FrameBuffer) (dstPos : Vector2D) (src : Rectangle) (row : Int → Int) : List (Int × Int) :=
  (Int.range 0 src.size.y ×ˢ Int.range 0 src.size.x).map fun d =>
    (fb.frameAddrAt (dstPos + ⟨d.2, row d.1⟩), fb.frameAddrAt (src.pos + ⟨d.2, row d.1⟩))

theorem moveRows_eq {dst from_ : Int → Int} (buffer : Int → PixelColor)
    (hdst : ∀ y dx, dst y + dx = fb.frameAddrAt (dstPos + ⟨dx, row y⟩))
    (hfrom : ∀ y dx, from_ y + dx = fb.frameAddrAt (src.pos + ⟨dx, row y⟩)) :
    (Int.range 0 src.size.y).foldl (fun buffer y => moveRow buffer (dst y) (from_ y) src.size.x) buffer =
      (fb.moves dstPos src row).foldl moveCell buffer := by
  have hproduct : Int.range 0 src.size.y ×ˢ Int.range 0 src.size.x =
      (Int.range 0 src.size.y).flatMap fun y => (Int.range 0 src.size.x).map (Prod.mk y) := rfl
  rw [moves, hproduct, List.map_flatMap, List.foldl_flatMap]
  apply congrArg (fun f => List.foldl f buffer (Int.range 0 src.size.y))
  funext buffer y
  rw [moveRow, List.map_map]
  apply congrArg (fun l => List.foldl moveCell buffer l)
  apply List.map_congr_left
  intro dx _
  rw [hdst, hfrom]
  rfl

/-- Both directions copy row by row. -/
theorem move_buffer (fb : FrameBuffer) (dstPos : Vector2D) (src : Rectangle) :
    (fb.move dstPos src).buffer = (fb.moves dstPos src
      (if dstPos.y < src.pos.y then fun y => y else fun y => src.size.y - 1 - y)).foldl moveCell
        fb.buffer := by
  unfold move
  split
  · exact moveRows_eq _ (fun y dx => frameAddrAt_add dstPos dx y) fun y dx =>
      frameAddrAt_add src.pos dx y
  · have hback : ∀ (pos : Vector2D) (y dx : Int),
        fb.frameAddrAt (pos + ⟨0, src.size.y - 1⟩) - fb.pixelsPerScanLine * y + dx =
          fb.frameAddrAt (pos + ⟨dx, src.size.y - 1 - y⟩) := by
      intro pos y dx
      have hrow : fb.pixelsPerScanLine * (pos.y + (src.size.y - 1 - y)) =
          fb.pixelsPerScanLine * (pos.y + (src.size.y - 1)) - fb.pixelsPerScanLine * y := by
        rw [← Int.mul_sub]
        congr 1
        omega
      unfold frameAddrAt
      dsimp only [Vector2D.add_x, Vector2D.add_y]
      rw [hrow]
      omega
    exact moveRows_eq _ (hback dstPos) (hback src.pos)

theorem move_frameAddrAt (fb : FrameBuffer) (dstPos : Vector2D) (src : Rectangle) (p : Vector2D) :
    (fb.move dstPos src).frameAddrAt p = fb.frameAddrAt p := by
  unfold move
  split <;> rfl

/-- A way to go through the rows of an area. -/
structure RowOrder (n : Int) (row : Int → Int) : Prop where
  range : ∀ y, 0 ≤ row y ∧ row y < n ↔ 0 ≤ y ∧ y < n
  inverse : ∀ y, row (row y) = y

theorem rowOrder_id (n : Int) : RowOrder n fun y => y := ⟨fun _ => Iff.rfl, fun _ => rfl⟩

theorem rowOrder_reverse (n : Int) : RowOrder n fun y => n - 1 - y :=
  ⟨fun y => by omega, fun y => by omega⟩

theorem mem_moves (hrow : RowOrder src.size.y row) {move : Int × Int} :
    move ∈ fb.moves dstPos src row ↔ ∃ d : Vector2D, (0 ≤ d.x ∧ d.x < src.size.x) ∧
      (0 ≤ d.y ∧ d.y < src.size.y) ∧
        move = (fb.frameAddrAt (dstPos + d), fb.frameAddrAt (src.pos + d)) := by
  unfold moves
  rw [List.mem_map]
  constructor
  · rintro ⟨⟨y, dx⟩, hd, rfl⟩
    rw [List.mem_product, Int.mem_range_iff, Int.mem_range_iff] at hd
    exact ⟨⟨dx, row y⟩, hd.2, (hrow.range y).mpr hd.1, rfl⟩
  · rintro ⟨d, hx, hy, rfl⟩
    refine ⟨(row d.y, d.x), ?_, ?_⟩
    · rw [List.mem_product, Int.mem_range_iff, Int.mem_range_iff]
      exact ⟨(hrow.range d.y).mpr hy, hx⟩
    · rw [hrow.inverse]

theorem range_nodup (m n : Int) : (Int.range m n).Nodup := by
  unfold Int.range
  apply List.Nodup.map _ List.nodup_range
  intro r r' heq
  dsimp only at heq
  omega

/-- No pixel is written twice. -/
theorem moves_nodup (hrow : RowOrder src.size.y row)
    (hinside : 0 ≤ dstPos.x ∧ dstPos.x + src.size.x ≤ fb.horizontalResolution) :
    ((fb.moves dstPos src row).map Prod.fst).Nodup := by
  unfold moves
  rw [List.map_map]
  apply List.Nodup.map_on _ ((range_nodup _ _).product (range_nodup _ _))
  rintro ⟨y, dx⟩ hd ⟨y', dx'⟩ hd' heq
  rw [List.mem_product, Int.mem_range_iff, Int.mem_range_iff] at hd hd'
  replace heq : fb.frameAddrAt (dstPos + ⟨dx, row y⟩) = fb.frameAddrAt (dstPos + ⟨dx', row y'⟩) := heq
  rw [frameAddrAt_inj (by dsimp; omega) (by dsimp; omega), Vector2D.ext_iff] at heq
  obtain ⟨hx, hy⟩ := heq
  dsimp only [Vector2D.add_x, Vector2D.add_y] at hx hy
  have hrows : row y = row y' := by omega
  rw [← hrow.inverse y, ← hrow.inverse y', hrows, show dx = dx' by omega]

end FrameBuffer

/-! ## Windows that are written to and moved -/

inductive WindowEvent where
  | write (pos : Vector2D) (c : PixelColor)
  | move (dstPos : Vector2D) (src : Rectangle)
  deriving DecidableEq

namespace Window

/-- `pos` is a pixel of the window. -/
def Inside (w : Window) (pos : Vector2D) : Prop := Rectangle.Contains ⟨⟨0, 0⟩, w.size⟩ pos

/-- A rectangle of pixels of the window. -/
def InsideArea (w : Window) (r : Rectangle) : Prop :=
  r.Sized ∧ (0 ≤ r.pos.x ∧ r.pos.x + r.size.x ≤ w.width) ∧ 0 ≤ r.pos.y ∧ r.pos.y + r.size.y ≤ w.height

/-- The two copies of the picture agree. -/
def Synced (w : Window) : Prop := ∀ p, w.Inside p → w.pixelAt p = w.shadowBuffer.getPixel p

end Window

/-- One call of `Write` or `Move` that stays inside the window. -/
inductive WindowStep (w : Window) : WindowEvent → Window → Prop
  | write (pos : Vector2D) (c : PixelColor) (hin : w.Inside pos) :
      WindowStep w (.write pos c) (w.write pos c)
  | move (dstPos : Vector2D) (src : Rectangle) (hsrc : w.InsideArea src)
      (hdst : w.InsideArea ⟨dstPos, src.size⟩) :
      WindowStep w (.move dstPos src) (w.move dstPos src)

namespace Window

variable {w w' : Window} {event : WindowEvent} {p : Vector2D}

/-- A move copies to each pixel the colour that it already has. -/
def MovesNothing (w : Window) : WindowEvent → Prop
  | .write _ _ => True
  | .move dstPos src => ∀ d : Vector2D, (0 ≤ d.x ∧ d.x < src.size.x) → (0 ≤ d.y ∧ d.y < src.size.y) →
      w.pixelAt (src.pos + d) = w.pixelAt (dstPos + d)

theorem inside_iff : w.Inside p ↔ (0 ≤ p.x ∧ p.x < w.width) ∧ 0 ≤ p.y ∧ p.y < w.height := by
  unfold Inside Rectangle.Contains size
  dsimp only
  omega

theorem shadow_resolution (w : Window) :
    (w.shadowBuffer.horizontalResolution : Int) = w.width ∧
      (w.shadowBuffer.verticalResolution : Int) = w.height := by
  have hsize := w.shadow_size
  unfold FrameBuffer.size at hsize
  rw [Vector2D.mk.injEq] at hsize
  exact hsize

theorem InsideArea.inside {r : Rectangle} (h : w.InsideArea r) {d : Vector2D}
    (hx : 0 ≤ d.x ∧ d.x < r.size.x) (hy : 0 ≤ d.y ∧ d.y < r.size.y) : w.Inside (r.pos + d) := by
  obtain ⟨-, hrx, hry⟩ := h
  rw [inside_iff]
  dsimp only [Vector2D.add_x, Vector2D.add_y]
  omega

theorem synced_new (width height : Nat) (shadowFormat : PixelFormat) :
    (new width height shadowFormat).Synced := fun _ _ => rfl

theorem Synced.write (h : w.Synced) {pos : Vector2D} (hin : w.Inside pos) (c : PixelColor) :
    (w.write pos c).Synced := by
  intro p hp
  have hres := w.shadow_resolution.1
  have hpx := (inside_iff.mp (show w.Inside p from hp)).1
  have hposx := (inside_iff.mp hin).1
  show Function.update w.data pos c p = (w.shadowBuffer.write pos c).getPixel p
  rw [FrameBuffer.write_getPixel c (by omega) (by omega), Function.update_apply]
  split
  · rfl
  · exact h p hp

/-- The two copies still agree after a move exactly if the move has changed nothing. -/
theorem Synced.move_iff (h : w.Synced) {dstPos : Vector2D} {src : Rectangle} (hsrc : w.InsideArea src)
    (hdst : w.InsideArea ⟨dstPos, src.size⟩) :
    (w.move dstPos src).Synced ↔ w.MovesNothing (.move dstPos src) := by
  obtain ⟨row, hrow, hbuffer⟩ : ∃ row, FrameBuffer.RowOrder src.size.y row ∧
      (w.shadowBuffer.move dstPos src).buffer =
        (w.shadowBuffer.moves dstPos src row).foldl moveCell w.shadowBuffer.buffer := by
    refine ⟨_, ?_, FrameBuffer.move_buffer ..⟩
    split
    · exact FrameBuffer.rowOrder_id _
    · exact FrameBuffer.rowOrder_reverse _
  have hinside : 0 ≤ dstPos.x ∧ dstPos.x + src.size.x ≤ w.shadowBuffer.horizontalResolution := by
    rw [w.shadow_resolution.1]
    exact hdst.2.1
  have hpixel : ∀ p, (w.move dstPos src).shadowBuffer.getPixel p =
      (w.shadowBuffer.moves dstPos src row).foldl moveCell w.shadowBuffer.buffer
        (w.shadowBuffer.frameAddrAt p) := by
    intro p
    rw [← hbuffer, ← FrameBuffer.move_frameAddrAt w.shadowBuffer dstPos src]
    rfl
  have hsynced : (w.move dstPos src).Synced ↔
      (w.shadowBuffer.moves dstPos src row).foldl moveCell w.shadowBuffer.buffer =
        w.shadowBuffer.buffer := by
    constructor
    · intro hs
      funext i
      by_cases hi : i ∈ (w.shadowBuffer.moves dstPos src row).map Prod.fst
      · -- a cell that is copied to is a pixel of the window
        obtain ⟨move, hmove, rfl⟩ := List.mem_map.mp hi
        obtain ⟨d, hx, hy, rfl⟩ := (FrameBuffer.mem_moves hrow).mp hmove
        have hd : w.Inside (dstPos + d) := hdst.inside hx hy
        rw [← hpixel, ← hs _ hd]
        exact h _ hd
      · exact foldl_moveCell_of_notMem hi
    · intro heq p hp
      rw [hpixel, heq]
      exact h p hp
  rw [hsynced, foldl_moveCell_eq_self_iff (FrameBuffer.moves_nodup hrow hinside)]
  constructor
  · intro hall d hx hy
    rw [h _ (hsrc.inside hx hy), h _ (hdst.inside (r := ⟨dstPos, src.size⟩) hx hy)]
    exact hall _ ((FrameBuffer.mem_moves hrow).mpr ⟨d, hx, hy, rfl⟩)
  · intro hall move hmove
    obtain ⟨d, hx, hy, rfl⟩ := (FrameBuffer.mem_moves hrow).mp hmove
    have hcolours := hall d hx hy
    rw [h _ (hsrc.inside hx hy), h _ (hdst.inside (r := ⟨dstPos, src.size⟩) hx hy)] at hcolours
    exact hcolours

theorem Synced.step_iff (h : w.Synced) (hstep : WindowStep w event w') :
    w'.Synced ↔ w.MovesNothing event := by
  cases hstep with
  | write pos c hin => exact iff_of_true (h.write hin c) trivial
  | move dstPos src hsrc hdst => exact h.move_iff hsrc hdst

theorem Synced.of_reachable (h : Reachable Synced (GuardedStep WindowStep MovesNothing) w) :
    w.Synced := by
  refine h.invariant (fun _ hs => hs) ?_
  rintro w w' hs ⟨event, hguard, hstep⟩
  exact (hs.step_iff hstep).mpr hguard

/-- Without colour key, both paths of `DrawTo` draw the same while the copies agree. -/
theorem Synced.drawShadow_eq (h : w.Synced) (hkey : w.transparentColor = none)
    (blend : PixelColor → PixelColor → PixelColor) {dst : FrameBuffer} {pos : Vector2D} {area : Rectangle}
    (hformat : dst.pixelFormat = w.shadowBuffer.pixelFormat) (hp : dst.outline.Contains p) :
    (w.drawShadow dst pos (Rectangle.inter ⟨pos, w.size⟩ area)).getPixel p =
      (w.drawPixels blend dst pos (Rectangle.inter ⟨pos, w.size⟩ area) false).getPixel p := by
  rw [drawShadow_getPixel hformat hp, drawPixels_getPixel blend hp, hkey]
  by_cases hin : Rectangle.Contains ⟨pos, w.size⟩ p ∧ area.Contains p
  · have hinside : w.Inside (p - pos) := by
      obtain ⟨⟨hx, hy⟩, -⟩ := hin
      unfold Inside Rectangle.Contains
      dsimp only [Vector2D.sub_x, Vector2D.sub_y] at hx hy ⊢
      omega
    rw [if_pos hin, if_pos ⟨hin, nofun⟩, h _ hinside]
  · rw [if_neg hin, if_neg fun hd => hin hd.1]

end Window

open Window

/-- **The two copies of a window's picture.**  As long as every move copies to each pixel the colour that it
already has, the copies agree, and both paths of `DrawTo` draw the same; and they stop to agree in the first
step in which a move does anything. -/
theorem window_copies_agree {w : Window} (h : Reachable Synced (GuardedStep WindowStep MovesNothing) w) :
    w.Synced ∧
      (w.transparentColor = none → ∀ blend (dst : FrameBuffer) pos area p,
        dst.pixelFormat = w.shadowBuffer.pixelFormat → dst.outline.Contains p →
        (w.drawShadow dst pos (Rectangle.inter ⟨pos, w.size⟩ area)).getPixel p =
          (w.drawPixels blend dst pos (Rectangle.inter ⟨pos, w.size⟩ area) false).getPixel p) ∧
      ∀ event w', WindowStep w event w' → (w'.Synced ↔ w.MovesNothing event) := by
  have hs := Synced.of_reachable h
  refine ⟨hs, fun hkey blend dst pos area p hformat hp => ?_, fun event w' hstep => hs.step_iff hstep⟩
  exact hs.drawShadow_eq hkey blend hformat hp

/-- A column of two black pixels, moved up by one. -/
theorem window_copies_agree_black_column :
    ∃ w : Window, w = (new 1 2 .kPixelRGBResv8BitPerColor).move ⟨0, 0⟩ ⟨⟨0, 1⟩, ⟨1, 1⟩⟩ ∧ w.Synced := by
  have hrun : Reachable Synced (GuardedStep WindowStep MovesNothing)
      (new 1 2 .kPixelRGBResv8BitPerColor) := .start (synced_new _ _ _)
  have hrun := hrun.next ⟨.move ⟨0, 0⟩ ⟨⟨0, 1⟩, ⟨1, 1⟩⟩, fun _ _ _ => rfl,
    .move _ _ (by unfold InsideArea Rectangle.Sized; decide)
      (by unfold InsideArea Rectangle.Sized; decide)⟩
  exact ⟨_, rfl, (window_copies_agree hrun).1⟩

/-- The lower pixel of a column is written red, and the column moved up: the shadow buffer has red in the
upper pixel, and `_data` still black. -/
theorem window_copies_differ :
    ∃ w, Reachable Synced (GuardedStep WindowStep fun _ _ => True) w ∧ w.Inside ⟨0, 0⟩ ∧
      w.pixelAt ⟨0, 0⟩ = ⟨0, 0, 0⟩ ∧ w.shadowBuffer.getPixel ⟨0, 0⟩ = ⟨255, 0, 0⟩ := by
  have hrun : Reachable Synced (GuardedStep WindowStep fun _ _ => True)
      (new 1 2 .kPixelRGBResv8BitPerColor) := .start (synced_new _ _ _)
  have hrun := hrun.next ⟨.write ⟨0, 1⟩ ⟨255, 0, 0⟩, trivial,
    .write _ _ (inside_iff.mpr (by decide))⟩
  have hrun := hrun.next ⟨.move ⟨0, 0⟩ ⟨⟨0, 1⟩, ⟨1, 1⟩⟩, trivial,
    .move _ _ (by unfold InsideArea Rectangle.Sized; decide)
      (by unfold InsideArea Rectangle.Sized; decide)⟩
  exact ⟨_, hrun, inside_iff.mpr (by decide), by decide, by decide⟩

end MikanSaos
