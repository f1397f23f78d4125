import MikanSaos.Graphics.LineBounds

/-!
# DrawingBounds — which drawing calls stay inside the window

Nothing between a call and `Window::Write` clips, so that each call is inside exactly when its shape is.
-/

open Reasoning

namespace MikanSaos

/-- The pixels that `_data` has. -/
def Window.Holds (w : Window) (pos : Vector2D) : Prop :=
  (0 ≤ pos.x ∧ pos.x < w.width) ∧ 0 ≤ pos.y ∧ pos.y < w.height

instance (w : Window) (pos : Vector2D) : Decidable (w.Holds pos) := inferInstanceAs (Decidable (_ ∧ _))

def Window.HoldsAll (w : Window) (r : Rectangle) : Prop :=
  (0 ≤ r.pos.x ∧ r.pos.x + r.size.x ≤ w.width) ∧ 0 ≤ r.pos.y ∧ r.pos.y + r.size.y ≤ w.height

theorem forall_getElem?_iff {α : Type} {l : List α} {P : α → Prop} :
    (∀ (n : Nat) a, l[n]? = some a → P a) ↔ ∀ a ∈ l, P a := by
  constructor
  · intro h a ha
    obtain ⟨n, hn⟩ := List.mem_iff_getElem?.mp ha
    exact h n a hn
  · intro h n a ha
    exact h a (List.mem_of_getElem? ha)

/-! ## Rectangles -/

theorem mem_fillRectangle {pos size : Vector2D} {c : PixelColor} {w : Write} :
    w ∈ fillRectangle pos size c ↔
      ∃ dx dy, (0 ≤ dx ∧ dx < size.x) ∧ (0 ≤ dy ∧ dy < size.y) ∧ w = (pos.add32 ⟨dx, dy⟩, c) := by
  simp only [fillRectangle, List.mem_flatMap, List.mem_map, Int.mem_range_iff]
  constructor
  · rintro ⟨dy, hdy, dx, hdx, rfl⟩
    exact ⟨dx, dy, hdx, hdy, rfl⟩
  · rintro ⟨dx, dy, hdx, hdy, rfl⟩
    exact ⟨dy, hdy, dx, hdx, rfl⟩

section

variable {win : OpenWindow} {pos size : Vector2D} {c : PixelColor}

/-- One pixel of a shape at `pos`. -/
theorem holds_add32 {dx dy : Int} (hx : -2 ^ 31 ≤ pos.x ∧ pos.x < 2 ^ 31) (hy : -2 ^ 31 ≤ pos.y ∧ pos.y < 2 ^ 31)
    (hdx : 0 ≤ dx ∧ dx < 2 ^ 31) (hdy : 0 ≤ dy ∧ dy < 2 ^ 31) :
    win.Holds (pos.add32 ⟨dx, dy⟩) ↔
      (0 ≤ pos.x + dx ∧ pos.x + dx < win.width) ∧ 0 ≤ pos.y + dy ∧ pos.y + dy < win.height := by
  have hwidth := win.width_int
  have hheight := win.height_int
  exact and_congr (int32_add_inside hx hdx (by omega)) (int32_add_inside hy hdy (by omega))

theorem fillRectangle_inside_iff (hx : -2 ^ 31 ≤ pos.x ∧ pos.x < 2 ^ 31) (hy : -2 ^ 31 ≤ pos.y ∧ pos.y < 2 ^ 31)
    (hw : size.x < 2 ^ 31) (hh : size.y < 2 ^ 31) :
    (∀ w ∈ fillRectangle pos size c, win.Holds w.1) ↔
      size.x ≤ 0 ∨ size.y ≤ 0 ∨ win.HoldsAll ⟨pos, size⟩ := by
  have hpixel : ∀ dx dy, (0 ≤ dx ∧ dx < size.x) → (0 ≤ dy ∧ dy < size.y) →
      (win.Holds (pos.add32 ⟨dx, dy⟩) ↔
        (0 ≤ pos.x + dx ∧ pos.x + dx < win.width) ∧ 0 ≤ pos.y + dy ∧ pos.y + dy < win.height) :=
    fun dx dy hdx hdy => holds_add32 hx hy (by omega) (by omega)
  unfold Window.HoldsAll
  dsimp only
  constructor
  · intro hall
    by_cases hempty : size.x ≤ 0 ∨ size.y ≤ 0
    · omega
    · -- the first and the last pixel of the rectangle
      have hcorner : ∀ dx dy, (0 ≤ dx ∧ dx < size.x) → (0 ≤ dy ∧ dy < size.y) →
          (0 ≤ pos.x + dx ∧ pos.x + dx < win.width) ∧ 0 ≤ pos.y + dy ∧ pos.y + dy < win.height :=
        fun dx dy hdx hdy => (hpixel dx dy hdx hdy).mp (hall _ (mem_fillRectangle.mpr ⟨dx, dy, hdx, hdy, rfl⟩))
      have hfirst := hcorner 0 0 (by omega) (by omega)
      have hlast := hcorner (size.x - 1) (size.y - 1) (by omega) (by omega)
      omega
  · intro hfits w hw
    obtain ⟨dx, dy, hdx, hdy, rfl⟩ := mem_fillRectangle.mp hw
    exact (hpixel dx dy hdx hdy).mpr (by omega)

end

/-! ## Strings -/

def inkColumns (hankaku : Nat → UInt8) (c : AsciiChar) : List Nat :=
  (List.range 8).filter fun dx => (List.range 16).any fun dy => inked hankaku c dx dy

def inkRows (hankaku : Nat → UInt8) (c : AsciiChar) : List Nat :=
  (List.range 16).filter fun dy => (List.range 8).any fun dx => inked hankaku c dx dy

/-- The smallest rectangle around the ink of a character, if it has any. -/
def inkBox (hankaku : Nat → UInt8) (c : AsciiChar) : Option Rectangle := do
  let left ← (inkColumns hankaku c).min?
  let right ← (inkColumns hankaku c).max?
  let top ← (inkRows hankaku c).min?
  let bottom ← (inkRows hankaku c).max?
  return ⟨⟨left, top⟩, ⟨right + 1 - left, bottom + 1 - top⟩⟩

section

variable {hankaku : Nat → UInt8} {c : AsciiChar} {color : PixelColor} {pos : Vector2D} {w : Write}

theorem mem_inkColumns {dx : Nat} :
    dx ∈ inkColumns hankaku c ↔ dx < 8 ∧ ∃ dy < 16, inked hankaku c dx dy = true := by
  simp [inkColumns]

theorem mem_inkRows {dy : Nat} :
    dy ∈ inkRows hankaku c ↔ dy < 16 ∧ ∃ dx < 8, inked hankaku c dx dy = true := by
  simp [inkRows]

theorem inkBox_eq_some {box : Rectangle} :
    inkBox hankaku c = some box ↔
      ∃ left right top bottom, (inkColumns hankaku c).min? = some left ∧ (inkColumns hankaku c).max? = some right ∧
        (inkRows hankaku c).min? = some top ∧ (inkRows hankaku c).max? = some bottom ∧
        box = ⟨⟨left, top⟩, ⟨right + 1 - left, bottom + 1 - top⟩⟩ := by
  simp only [inkBox, Option.bind_eq_bind, Option.bind_eq_some_iff, Option.pure_def, Option.some.injEq]
  constructor
  · rintro ⟨left, hleft, right, hright, top, htop, bottom, hbottom, rfl⟩
    exact ⟨left, right, top, bottom, hleft, hright, htop, hbottom, rfl⟩
  · rintro ⟨left, right, top, bottom, hleft, hright, htop, hbottom, rfl⟩
    exact ⟨left, hleft, right, hright, top, htop, bottom, hbottom, rfl⟩

theorem mem_writeAscii :
    w ∈ writeAscii hankaku pos c color ↔
      ∃ dx dy, dx < 8 ∧ dy < 16 ∧ inked hankaku c dx dy = true ∧ w = (pos.add32 ⟨dx, dy⟩, color) := by
  simp only [writeAscii, List.mem_flatMap, List.mem_map, List.mem_filter, List.mem_range]
  constructor
  · rintro ⟨dy, hdy, dx, ⟨hdx, hink⟩, rfl⟩
    exact ⟨dx, dy, hdx, hdy, hink, rfl⟩
  · rintro ⟨dx, dy, hdx, hdy, hink, rfl⟩
    exact ⟨dy, hdy, dx, ⟨hdx, hink⟩, rfl⟩

theorem writeAscii_inside_iff {win : OpenWindow} (hx : -2 ^ 31 ≤ pos.x ∧ pos.x < 2 ^ 31)
    (hy : -2 ^ 31 ≤ pos.y ∧ pos.y < 2 ^ 31) :
    (∀ w ∈ writeAscii hankaku pos c color, win.Holds w.1) ↔
      ∀ box, inkBox hankaku c = some box → win.HoldsAll ⟨pos + box.pos, box.size⟩ := by
  have hpixel : ∀ dx dy : Nat, dx < 8 → dy < 16 → (win.Holds (pos.add32 ⟨dx, dy⟩) ↔
      (0 ≤ pos.x + dx ∧ pos.x + dx < win.width) ∧ 0 ≤ pos.y + dy ∧ pos.y + dy < win.height) :=
    fun dx dy hdx hdy => holds_add32 hx hy (by omega) (by omega)
  constructor
  · rintro hall box hbox
    obtain ⟨left, right, top, bottom, hleft, hright, htop, hbottom, rfl⟩ := inkBox_eq_some.mp hbox
    have hink : ∀ dx dy : Nat, dx < 8 → dy < 16 → inked hankaku c dx dy = true →
        (0 ≤ pos.x + dx ∧ pos.x + dx < win.width) ∧ 0 ≤ pos.y + dy ∧ pos.y + dy < win.height :=
      fun dx dy hdx hdy hink => (hpixel dx dy hdx hdy).mp (hall _ (mem_writeAscii.mpr ⟨dx, dy, hdx, hdy, hink, rfl⟩))
    have hcolumn : ∀ dx ∈ inkColumns hankaku c, 0 ≤ pos.x + dx ∧ pos.x + dx < win.width := by
      intro dx hdx
      obtain ⟨hlt, dy, hdy, h⟩ := mem_inkColumns.mp hdx
      exact (hink dx dy hlt hdy h).1
    have hrow : ∀ dy ∈ inkRows hankaku c, 0 ≤ pos.y + dy ∧ pos.y + dy < win.height := by
      intro dy hdy
      obtain ⟨hlt, dx, hdx, h⟩ := mem_inkRows.mp hdy
      exact (hink dx dy hdx hlt h).2
    have h1 := hcolumn left (List.min?_mem hleft)
    have h2 := hcolumn right (List.max?_mem hright)
    have h3 := hrow top (List.min?_mem htop)
    have h4 := hrow bottom (List.max?_mem hbottom)
    unfold Window.HoldsAll
    dsimp only [Vector2D.add_x, Vector2D.add_y]
    omega
  · intro hbox w hw
    obtain ⟨dx, dy, hdx, hdy, hink, rfl⟩ := mem_writeAscii.mp hw
    have hcolumn : dx ∈ inkColumns hankaku c := mem_inkColumns.mpr ⟨hdx, dy, hdy, hink⟩
    have hrow : dy ∈ inkRows hankaku c := mem_inkRows.mpr ⟨hdy, dx, hdx, hink⟩
    obtain ⟨left, hleft⟩ := Option.isSome_iff_exists.mp (List.isSome_min?_of_mem hcolumn)
    obtain ⟨right, hright⟩ := Option.isSome_iff_exists.mp (List.isSome_max?_of_mem hcolumn)
    obtain ⟨top, htop⟩ := Option.isSome_iff_exists.mp (List.isSome_min?_of_mem hrow)
    obtain ⟨bottom, hbottom⟩ := Option.isSome_iff_exists.mp (List.isSome_max?_of_mem hrow)
    have hfits := hbox _ (inkBox_eq_some.mpr ⟨left, right, top, bottom, hleft, hright, htop, hbottom, rfl⟩)
    have h1 := (List.min?_eq_some_iff.mp hleft).2 dx hcolumn
    have h2 := (List.max?_eq_some_iff.mp hright).2 dx hcolumn
    have h3 := (List.min?_eq_some_iff.mp htop).2 dy hrow
    have h4 := (List.max?_eq_some_iff.mp hbottom).2 dy hrow
    unfold Window.HoldsAll at hfits
    dsimp only [Vector2D.add_x, Vector2D.add_y] at hfits
    apply (hpixel dx dy hdx hdy).mpr
    omega

/-- The origin of the `i`-th character. -/
def charPos (pos : Vector2D) (i : Nat) : Vector2D := ⟨int32 (pos.x + 8 * i), pos.y⟩

theorem mem_writeString {s : List AsciiChar} {posX : Int} :
    w ∈ writeString hankaku pos color posX s ↔
      ∃ (i : Nat) (c : AsciiChar), s[i]? = some c ∧
        w ∈ writeAscii hankaku (pos.add32 ⟨int32 (8 * (posX + i)), 0⟩) c color := by
  induction s generalizing posX with
  | nil => simp [writeString]
  | cons c s ih =>
    have hwrap : ∀ i : Nat, int32 (8 * (int32 (posX + 1) + i)) = int32 (8 * (posX + (i + 1 : Nat))) := by
      intro i
      unfold int32
      push_cast
      omega
    rw [writeString, List.mem_append, ih]
    constructor
    · rintro (hhead | ⟨i, c', hc', hw⟩)
      · exact ⟨0, c, rfl, by simpa using hhead⟩
      · exact ⟨i + 1, c', hc', by rwa [← hwrap]⟩
    · rintro ⟨i, c', hc', hw⟩
      cases i with
      | zero =>
        cases hc'
        exact .inl (by simpa using hw)
      | succ i => exact .inr ⟨i, c', hc', by rwa [hwrap]⟩

theorem writeString_inside_iff {win : OpenWindow} {s : List AsciiChar}
    (hy : -2 ^ 31 ≤ pos.y ∧ pos.y < 2 ^ 31) :
    (∀ w ∈ writeString hankaku pos color 0 s, win.Holds w.1) ↔
      ∀ (i : Nat) c, s[i]? = some c → ∀ box, inkBox hankaku c = some box →
        win.HoldsAll ⟨charPos pos i + box.pos, box.size⟩ := by
  have horigin : ∀ i : Nat, pos.add32 ⟨int32 (8 * (0 + i)), 0⟩ = charPos pos i := by
    intro i
    apply Vector2D.ext
    · show int32 (pos.x + int32 (8 * (0 + i))) = int32 (pos.x + 8 * i)
      unfold int32
      omega
    · show int32 (pos.y + 0) = pos.y
      rw [add_zero, int32_of_mem hy]
  constructor
  · intro hall i c hc
    have hx : -2 ^ 31 ≤ (charPos pos i).x ∧ (charPos pos i).x < 2 ^ 31 := int32_mem _
    have hchar : ∀ w ∈ writeAscii hankaku (charPos pos i) c color, win.Holds w.1 := by
      intro w hw
      apply hall w
      exact mem_writeString.mpr ⟨i, c, hc, by rwa [horigin]⟩
    exact (writeAscii_inside_iff hx hy).mp hchar
  · intro hbox w hw
    obtain ⟨i, c, hc, hw⟩ := mem_writeString.mp hw
    rw [horigin] at hw
    have hx : -2 ^ 31 ≤ (charPos pos i).x ∧ (charPos pos i).x < 2 ^ 31 := int32_mem _
    exact (writeAscii_inside_iff hx hy).mpr (hbox i c hc) w hw

end

/-! ## Lines -/

section

variable {win : OpenWindow} {x0 y0 x1 y1 : Int} {color : PixelColor}

theorem OpenWindow.stored_size (win : OpenWindow) : Stored win.width win.height := by
  have hwidth := win.width_int
  have hheight := win.height_int
  have harea := win.stored
  unfold heapBytes at harea
  refine ⟨by omega, by omega, by omega, by omega, ?_⟩
  rw [← Nat.cast_mul]
  omega

/-- The longer axis of the line overflows backwards. -/
def NothingDrawn (x0 y0 x1 y1 : Int) : Prop :=
  if abs32 (extent x0 x1) ≥ abs32 (extent y0 y1) then Backwards x0 x1 else Backwards y0 y1

theorem forall_map_iff {α β : Type} {f : Nat → Option α} {g : α → β} {P : β → Prop} :
    (∀ n b, (f n).map g = some b → P b) ↔ ∀ n a, f n = some a → P (g a) := by
  constructor
  · intro h n a ha
    exact h n (g a) (by rw [ha]; rfl)
  · intro h n b hb
    obtain ⟨a, ha, rfl⟩ := Option.map_eq_some_iff.mp hb
    exact h n a ha

theorem drawLine_inside_iff (hx0 : -2 ^ 31 ≤ x0 ∧ x0 < 2 ^ 31)
    (hx1 : -2 ^ 31 ≤ x1 ∧ x1 < 2 ^ 31) (hy0 : -2 ^ 31 ≤ y0 ∧ y0 < 2 ^ 31) (hy1 : -2 ^ 31 ≤ y1 ∧ y1 < 2 ^ 31) :
    (∀ n w, drawLine x0 y0 x1 y1 color n = some w → win.Holds w.1) ↔
      win.Holds ⟨x0, y0⟩ ∧ win.Holds ⟨x1, y1⟩ ∨ NothingDrawn x0 y0 x1 y1 := by
  unfold drawLine NothingDrawn
  dsimp only
  by_cases hpoint : extent x0 x1 = 0 ∧ extent y0 y1 = 0
  · -- a single pixel
    obtain rfl := (extent_eq_zero hx0 hx1).mp hpoint.1
    obtain rfl := (extent_eq_zero hy0 hy1).mp hpoint.2
    have hnothing : ¬ (if abs32 (extent x0 x0) ≥ abs32 (extent y0 y0) then Backwards x0 x0 else Backwards y0 y0) := by
      unfold Backwards
      split <;> omega
    simp only [if_pos hpoint, and_self, or_iff_left hnothing]
    exact forall_getElem?_iff.trans List.forall_mem_singleton
  · simp only [if_neg hpoint]
    by_cases hmajor : abs32 (extent x0 x1) ≥ abs32 (extent y0 y1)
    · simp only [if_pos hmajor]
      exact forall_map_iff.trans (lineAlong_inside_iff win.stored_size hx0 hx1 hy0 hy1 hpoint hmajor)
    · simp only [if_neg hmajor]
      have hsteep := lineAlong_inside_iff win.stored_size.symm hy0 hy1 hx0 hx1 (fun h => hpoint h.symm) (by omega)
      have hholds : ∀ x y, win.Holds ⟨x, y⟩ ↔ PairInside win.height win.width (y, x) := fun x y => and_comm
      rw [hholds, hholds, ← hsteep]
      refine forall_map_iff.trans ?_
      exact forall₂_congr fun n p => imp_congr_right fun _ => hholds p.2 p.1

end

/-! ## The calls -/

/-- Where a call stays inside the window: its rectangle is empty or fits, the ink of each character fits, or both
ends of the line are in the window. -/
def DrawingCall.Fits (hankaku : Nat → UInt8) (win : OpenWindow) : DrawingCall → Prop
  | winWriteString _ arg2 arg3 _ s => ∀ (i : Nat) c, s[i]? = some c → ∀ box, inkBox hankaku c = some box →
      win.HoldsAll ⟨charPos ⟨intArg arg2, intArg arg3⟩ i + box.pos, box.size⟩
  | winFillRectangle _ arg2 arg3 arg4 arg5 _ => intArg arg4 ≤ 0 ∨ intArg arg5 ≤ 0 ∨
      win.HoldsAll ⟨⟨intArg arg2, intArg arg3⟩, ⟨intArg arg4, intArg arg5⟩⟩
  | winDrawLine _ arg2 arg3 arg4 arg5 _ =>
      win.Holds ⟨intArg arg2, intArg arg3⟩ ∧ win.Holds ⟨intArg arg4, intArg arg5⟩ ∨
        NothingDrawn (intArg arg2) (intArg arg3) (intArg arg4) (intArg arg5)

/-- **A drawing call stays inside its window exactly when its shape does.**  No call clips what it draws. -/
theorem drawing_inside_iff (hankaku : Nat → UInt8) (findLayer : BitVec 32 → Option OpenWindow) (call : DrawingCall) :
    (∀ win writes, call.doWinFunc hankaku findLayer = .ok (win, writes) →
        ∀ n w, writes n = some w → win.Holds w.1) ↔
      ∀ win, findLayer call.layerId = some win → call.Fits hankaku win := by
  have hcall : ∀ win : OpenWindow,
      (∀ n w, call.writes hankaku n = some w → win.Holds w.1) ↔ call.Fits hankaku win := by
    intro win
    cases call with
    | winWriteString arg1 arg2 arg3 arg4 s =>
      exact forall_getElem?_iff.trans (writeString_inside_iff (intArg_mem arg3))
    | winFillRectangle arg1 arg2 arg3 arg4 arg5 arg6 =>
      exact forall_getElem?_iff.trans (fillRectangle_inside_iff (intArg_mem arg2) (intArg_mem arg3)
        (intArg_mem arg4).2 (intArg_mem arg5).2)
    | winDrawLine arg1 arg2 arg3 arg4 arg5 arg6 =>
      exact drawLine_inside_iff (intArg_mem arg2) (intArg_mem arg4) (intArg_mem arg3) (intArg_mem arg5)
  unfold DrawingCall.doWinFunc
  cases findLayer call.layerId with
  | none => simp
  | some win => simpa using hcall win

/-- A window of 100 by 60 pixels. -/
def smallWindow : OpenWindow :=
  { Window.new 100 60 .kPixelRGBResv8BitPerColor with
    width_int := by decide
    height_int := by decide
    stored := by decide }

/-- A rectangle of 10 by 10 pixels at the column -4 writes to that column. -/
theorem rectangle_leaves_window :
    ¬ ∀ (hankaku : Nat → UInt8) (findLayer : BitVec 32 → Option OpenWindow) (call : DrawingCall),
      ∀ win writes, call.doWinFunc hankaku findLayer = .ok (win, writes) →
        ∀ n w, writes n = some w → win.Holds w.1 := by
  intro h
  have hwrite := h (fun _ => 0) (fun _ => some smallWindow) (.winFillRectangle 1 (-4) 20 10 10 0) smallWindow _ rfl
    0 (⟨-4, 20⟩, ⟨0, 0, 0⟩) (by decide)
  exact absurd hwrite (by decide)

end MikanSaos
