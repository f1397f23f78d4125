import MikanSaos.Graphics.Console
import MikanSaos.Graphics.DrawingBounds
import MikanSaos.Graphics.RectangleMove

/-!
# ConsolePicture — the console in its window

`PutString` draws each character where it stores it.  When the lines go up, `NewLine` moves the picture of the window,
and then writes every line over the picture of itself.  Strings are of ASCII characters.
-/

open Reasoning

namespace MikanSaos

/-- The `Write`s of a drawing function. -/
def Window.writeAll (w : Window) (writes : List Write) : Window :=
  writes.foldl (fun window w => window.write w.1 w.2) w

/-- A console with its window; `_writer` is the writer of the window. -/
structure ConsoleWindow where
  con : Console AsciiChar
  window : Window
  fgColor : PixelColor
  bgColor : PixelColor

namespace ConsoleWindow

open Console

def newline : AsciiChar := ⟨10, by decide⟩

/-- The string at the beginning of some cells. -/
def stringFrom (cells : Nat → Option AsciiChar) (column : Nat) : Nat → List AsciiChar
  | 0 => []
  | n + 1 =>
    match cells column with
    | none => []
    | some c => c :: stringFrom cells (column + 1) n

/-- `_buffer[row]` as a string. -/
def rowString (cells : Nat → Option AsciiChar) : List AsciiChar := stringFrom cells 0 (kColumns + 1)

variable (hankaku : Nat → UInt8)

/-- A round of the loop over the rows in `NewLine`. -/
def scrollRow (fgColor : PixelColor) (s : (Nat → Nat → Option AsciiChar) × Window) (row : Nat) :
    (Nat → Nat → Option AsciiChar) × Window :=
  let buffer := copyUp s.1 row
  (buffer, s.2.writeAll (writeString hankaku ⟨0, 16 * row⟩ fgColor 0 (rowString (buffer row))))

/-- `NewLine` -/
def newLine (cw : ConsoleWindow) : ConsoleWindow :=
  if cw.con.cursorRow < kRows - 1 then { cw with con := cw.con.newLine }
  else
    let moveSrc : Rectangle := ⟨⟨0, 16⟩, ⟨8 * kColumns, 16 * (kRows - 1 : Nat)⟩⟩
    let window := cw.window.move ⟨0, 0⟩ moveSrc
    let window := window.writeAll (fillRectangle ⟨0, 16 * (kRows - 1 : Nat)⟩ ⟨8 * kColumns, 16⟩ cw.bgColor)
    let (buffer, window) := (List.range (kRows - 1)).foldl (scrollRow hankaku cw.fgColor) (cw.con.buffer, window)
    { cw with
      con := { cw.con with cursorColumn := 0, buffer := Function.update buffer (kRows - 1) fun _ => none }
      window := window }

/-- What is done for one character of the string. -/
def put (cw : ConsoleWindow) (c : AsciiChar) : ConsoleWindow :=
  if c = newline then cw.newLine hankaku
  else if cw.con.cursorColumn < kColumns - 1 then
    { cw with
      con := cw.con.put newline c
      window := cw.window.writeAll
        (writeAscii hankaku ⟨8 * cw.con.cursorColumn, 16 * cw.con.cursorRow⟩ c cw.fgColor) }
  else cw

def putString (cw : ConsoleWindow) (s : List AsciiChar) : ConsoleWindow := s.foldl (put hankaku) cw

/-- `Refresh` -/
def refresh (cw : ConsoleWindow) : ConsoleWindow :=
  { cw with
    window := (List.range kRows).foldl (fun window (row : Nat) =>
      window.writeAll (writeString hankaku ⟨0, 16 * row⟩ cw.fgColor 0 (rowString (cw.con.buffer row))))
        (cw.window.writeAll (fillRectangle ⟨0, 0⟩ ⟨8 * kColumns, 16 * kRows⟩ cw.bgColor)) }

/-- `SetWindow`, for another window than before. -/
def setWindow (con : Console AsciiChar) (window : Window) (fgColor bgColor : PixelColor) : ConsoleWindow :=
  refresh hankaku ⟨con, window, fgColor, bgColor⟩

end ConsoleWindow

/-! ## Writes -/

section Writes

variable {w : Window} {writes : List Write} {p : Vector2D} {color : PixelColor}

theorem writeAll_size (w : Window) (writes : List Write) : (w.writeAll writes).size = w.size := by
  induction writes generalizing w with
  | nil => rfl
  | cons write writes ih => exact ih (w.write write.1 write.2)

/-- Writes of one colour. -/
theorem writeAll_getPixel (hcolor : ∀ write ∈ writes, write.2 = color)
    (hinside : ∀ write ∈ writes, 0 ≤ write.1.x ∧ write.1.x < w.width) (hp : 0 ≤ p.x ∧ p.x < w.width) :
    (w.writeAll writes).shadowBuffer.getPixel p =
      if ∃ write ∈ writes, write.1 = p then color else w.shadowBuffer.getPixel p := by
  induction writes generalizing w with
  | nil => simp [Window.writeAll]
  | cons write writes ih =>
    rw [List.forall_mem_cons] at hcolor hinside
    have hrest := ih (w := w.write write.1 write.2) hcolor.2 hinside.2 hp
    have hres := w.shadow_resolution.1
    have hwrite : (w.write write.1 write.2).shadowBuffer.getPixel p =
        if p = write.1 then write.2 else w.shadowBuffer.getPixel p :=
      FrameBuffer.write_getPixel write.2 (by omega) (by omega)
    show ((w.write write.1 write.2).writeAll writes).shadowBuffer.getPixel p = _
    rw [hrest, hwrite, hcolor.1]
    by_cases hlater : ∃ write ∈ writes, write.1 = p
    · rw [if_pos hlater, if_pos (by simpa using Or.inr hlater)]
    · rw [if_neg hlater]
      by_cases heq : p = write.1
      · rw [if_pos heq, if_pos ⟨write, List.mem_cons_self, heq.symm⟩]
      · rw [if_neg heq, if_neg]
        rintro ⟨w', hw', heq'⟩
        rcases List.mem_cons.mp hw' with rfl | hw'
        · exact heq heq'.symm
        · exact hlater ⟨w', hw', heq'⟩

/-- A rectangle moves up. -/
theorem move_up_getPixel {dstPos d : Vector2D} {src : Rectangle} (hsrc : w.shadowBuffer.InsideBuffer src)
    (hdst : w.shadowBuffer.InsideBuffer ⟨dstPos, src.size⟩) (hup : dstPos.y < src.pos.y)
    (hd : FrameBuffer.InSize src.size d) :
    (w.move dstPos src).shadowBuffer.getPixel (dstPos + d) = w.shadowBuffer.getPixel (src.pos + d) := by
  have hrow := FrameBuffer.rowOrder_moveOrder dstPos src
  have hbuffer : (w.shadowBuffer.move dstPos src).buffer = writeCells w.shadowBuffer.buffer
      ((w.shadowBuffer.moves dstPos src (FrameBuffer.moveOrder dstPos src)).map
        fun m => (m.1, w.shadowBuffer.buffer m.2)) := by
    rw [FrameBuffer.move_buffer]
    exact foldl_moveCell_eq_writeCells (FrameBuffer.moves_pairwise hsrc hdst (.inr (.inl (Int.ne_of_lt hup))))
  obtain ⟨-, hdstx, -⟩ := hdst
  dsimp only at hdstx
  show (w.shadowBuffer.move dstPos src).buffer ((w.shadowBuffer.move dstPos src).frameAddrAt (dstPos + d)) = _
  rw [FrameBuffer.move_frameAddrAt, hbuffer]
  apply writeCells_of_mem
  · exact ⟨_, List.mem_map_of_mem ((FrameBuffer.mem_moves hrow).mpr ⟨d, hd.1, hd.2, rfl⟩), rfl⟩
  · -- each pixel comes from one place
    intro cell hcell haddr
    obtain ⟨m, hm, rfl⟩ := List.mem_map.mp hcell
    obtain ⟨d', hx, hy, rfl⟩ := (FrameBuffer.mem_moves hrow).mp hm
    unfold FrameBuffer.InSize at hd
    dsimp only at haddr ⊢
    rw [FrameBuffer.frameAddrAt_inj (by dsimp; omega) (by dsimp; omega), Vector2D.ext_iff] at haddr
    dsimp only [Vector2D.add_x, Vector2D.add_y] at haddr
    have hsame : d' = d := Vector2D.ext (by omega) (by omega)
    rw [hsame]
    rfl

end Writes

namespace ConsoleWindow

open Console

/-! ## The picture of a text -/

/-- The pixel at `(dx, dy)` of a cell. -/
def cellColor (hankaku : Nat → UInt8) (fgColor bgColor : PixelColor) (cell : Option AsciiChar) (dx dy : Nat) :
    PixelColor :=
  match cell with
  | none => bgColor
  | some c => if inked hankaku c dx dy then fgColor else bgColor

/-- The pixel at `(dx, dy)` of the cell in a row and a column. -/
def pixelOf (row column dx dy : Nat) : Vector2D := ⟨8 * column + dx, 16 * row + dy⟩

/-- The rows of cells that satisfy `rows` are drawn in the window. -/
def Drawn (hankaku : Nat → UInt8) (fgColor bgColor : PixelColor) (w : Window) (rows : Nat → Prop)
    (cells : Nat → Nat → Option AsciiChar) : Prop :=
  ∀ row < kRows, rows row → ∀ column < kColumns, ∀ dx < 8, ∀ dy < 16,
    w.shadowBuffer.getPixel (pixelOf row column dx dy) = cellColor hankaku fgColor bgColor (cells row column) dx dy

/-- The size that the window of the console has. -/
def Sized (w : Window) : Prop := w.size = ⟨8 * kColumns, 16 * kRows⟩

section Drawing

variable {hankaku : Nat → UInt8} {fgColor bgColor color : PixelColor} {w : Window} {rows : Nat → Prop}
  {cells cells' : Nat → Nat → Option AsciiChar} {row column dx dy : Nat} {c : AsciiChar} {s : List AsciiChar}
  {writes : List Write}

theorem Sized.width (h : Sized w) : w.width = 640 := by
  have hx : ((w.width : Nat) : Int) = 640 := congrArg Vector2D.x h
  omega

theorem Sized.height (h : Sized w) : w.height = 400 := by
  have hy : ((w.height : Nat) : Int) = 400 := congrArg Vector2D.y h
  omega

theorem Sized.writeAll (h : Sized w) (writes : List Write) : Sized (w.writeAll writes) :=
  (writeAll_size w writes).trans h

theorem Sized.move (h : Sized w) (dstPos : Vector2D) (src : Rectangle) : Sized (w.move dstPos src) := h

theorem add32_eq {pos d : Vector2D} (hx : -2 ^ 31 ≤ pos.x + d.x ∧ pos.x + d.x < 2 ^ 31)
    (hy : -2 ^ 31 ≤ pos.y + d.y ∧ pos.y + d.y < 2 ^ 31) : pos.add32 d = pos + d := by
  apply Vector2D.ext
  · show int32 (pos.x + d.x) = pos.x + d.x
    unfold int32
    omega
  · show int32 (pos.y + d.y) = pos.y + d.y
    unfold int32
    omega

/-- The pixels of a character. -/
theorem mem_writeAscii_cell {write : Write} (hrow : row < 2 ^ 20) (hcolumn : column < 2 ^ 20) :
    write ∈ writeAscii hankaku ⟨8 * column, 16 * row⟩ c color ↔
      ∃ dx dy, dx < 8 ∧ dy < 16 ∧ inked hankaku c dx dy = true ∧ write = (pixelOf row column dx dy, color) := by
  have hadd : ∀ dx dy : Nat, dx < 8 → dy < 16 →
      Vector2D.add32 ⟨8 * column, 16 * row⟩ ⟨dx, dy⟩ = pixelOf row column dx dy :=
    fun dx dy hdx hdy => add32_eq (by dsimp only; omega) (by dsimp only; omega)
  rw [mem_writeAscii]
  constructor
  · rintro ⟨dx, dy, hdx, hdy, hink, rfl⟩
    exact ⟨dx, dy, hdx, hdy, hink, by rw [hadd dx dy hdx hdy]⟩
  · rintro ⟨dx, dy, hdx, hdy, hink, rfl⟩
    exact ⟨dx, dy, hdx, hdy, hink, by rw [hadd dx dy hdx hdy]⟩

theorem mem_writeString_row {write : Write} (hrow : row < 2 ^ 20) (hlength : s.length ≤ 2 ^ 20) :
    write ∈ writeString hankaku ⟨0, 16 * row⟩ color 0 s ↔
      ∃ column c, s[column]? = some c ∧
        ∃ dx dy, dx < 8 ∧ dy < 16 ∧ inked hankaku c dx dy = true ∧ write = (pixelOf row column dx dy, color) := by
  rw [mem_writeString]
  apply exists_congr
  intro column
  apply exists_congr
  intro c
  apply and_congr_right
  intro hc
  have hcolumn := (List.getElem?_eq_some_iff.mp hc).1
  have hpos : Vector2D.add32 ⟨0, 16 * row⟩ ⟨int32 (8 * (0 + column)), 0⟩ = ⟨8 * column, 16 * row⟩ := by
    have hsmall : int32 (8 * (0 + column)) = 8 * column := by
      unfold int32
      omega
    rw [hsmall, add32_eq (by dsimp only; omega) (by dsimp only; omega)]
    apply Vector2D.ext
    · show 0 + 8 * (column : Int) = 8 * column
      omega
    · show 16 * (row : Int) + 0 = 16 * row
      omega
  rw [hpos]
  exact mem_writeAscii_cell hrow (by omega)

theorem pixelOf_inj {row' column' dx' dy' : Nat} (hdx : dx < 8) (hdx' : dx' < 8) (hdy : dy < 16) (hdy' : dy' < 16) :
    pixelOf row column dx dy = pixelOf row' column' dx' dy' ↔ row = row' ∧ column = column' ∧ dx = dx' ∧ dy = dy' := by
  rw [Vector2D.ext_iff]
  unfold pixelOf
  dsimp only
  omega

/-- The writes are the ink of some characters in their cells. -/
def Inks (hankaku : Nat → UInt8) (color : PixelColor) (writes : List Write)
    (glyphs : Nat → Nat → Option AsciiChar) : Prop :=
  ∀ write, write ∈ writes ↔ ∃ row column c, glyphs row column = some c ∧
    ∃ dx dy, dx < 8 ∧ dy < 16 ∧ inked hankaku c dx dy = true ∧ write = (pixelOf row column dx dy, color)

/-- A character in its cell. -/
def oneGlyph (row column : Nat) (c : AsciiChar) : Nat → Nat → Option AsciiChar := fun r k =>
  if r = row ∧ k = column then some c else none

/-- A string in its row. -/
def rowGlyphs (row : Nat) (s : List AsciiChar) : Nat → Nat → Option AsciiChar := fun r k =>
  if r = row then s[k]? else none

theorem inks_writeAscii (hrow : row < 2 ^ 20) (hcolumn : column < 2 ^ 20) :
    Inks hankaku color (writeAscii hankaku ⟨8 * column, 16 * row⟩ c color) (oneGlyph row column c) := by
  intro write
  rw [mem_writeAscii_cell hrow hcolumn]
  constructor
  · exact fun h => ⟨row, column, c, if_pos ⟨rfl, rfl⟩, h⟩
  · rintro ⟨r, k, c', hglyph, h⟩
    unfold oneGlyph at hglyph
    split at hglyph
    · next hcell =>
      obtain ⟨rfl, rfl⟩ := hcell
      cases hglyph
      exact h
    · cases hglyph

theorem inks_writeString (hrow : row < 2 ^ 20) (hlength : s.length ≤ 2 ^ 20) :
    Inks hankaku color (writeString hankaku ⟨0, 16 * row⟩ color 0 s) (rowGlyphs row s) := by
  intro write
  rw [mem_writeString_row hrow hlength]
  constructor
  · rintro ⟨column, c, hc, h⟩
    exact ⟨row, column, c, (if_pos rfl).trans hc, h⟩
  · rintro ⟨r, k, c, hglyph, h⟩
    unfold rowGlyphs at hglyph
    split at hglyph
    · next hr =>
      subst hr
      exact ⟨k, c, hglyph, h⟩
    · cases hglyph

theorem Drawn.congr {rows' : Nat → Prop} (h : Drawn hankaku fgColor bgColor w rows cells)
    (hrows : ∀ row < kRows, rows' row → rows row)
    (hcells : ∀ row < kRows, ∀ column < kColumns, cells' row column = cells row column) :
    Drawn hankaku fgColor bgColor w rows' cells' := by
  intro row hrow hin column hcolumn dx hdx dy hdy
  rw [hcells row hrow column hcolumn]
  exact h row hrow (hrows row hrow hin) column hcolumn dx hdx dy hdy

/-- **Ink in blank cells, or on the same characters.** -/
theorem Drawn.ink (h : Drawn hankaku fgColor bgColor w rows cells) (hsized : Sized w)
    {glyphs : Nat → Nat → Option AsciiChar} (hinks : Inks hankaku fgColor writes glyphs)
    (hcells : ∀ row column c, glyphs row column = some c →
      column < kColumns ∧ (cells row column = none ∨ cells row column = some c)) :
    Drawn hankaku fgColor bgColor (w.writeAll writes) rows
      fun row column => (glyphs row column).or (cells row column) := by
  have hwidth := hsized.width
  have hcolumns : kColumns = 80 := rfl
  have hcolor : ∀ write ∈ writes, write.2 = fgColor := by
    intro write hwrite
    obtain ⟨_, _, _, _, _, _, _, _, _, rfl⟩ := (hinks write).mp hwrite
    rfl
  have hinside : ∀ write ∈ writes, 0 ≤ write.1.x ∧ write.1.x < w.width := by
    intro write hwrite
    obtain ⟨row, column, c, hglyph, dx, dy, hdx, _, _, rfl⟩ := (hinks write).mp hwrite
    have hcolumn := (hcells row column c hglyph).1
    show 0 ≤ (8 * column + dx : Int) ∧ (8 * column + dx : Int) < w.width
    omega
  intro row hrow hrows column hcolumn dx hdx dy hdy
  have hp : 0 ≤ (pixelOf row column dx dy).x ∧ (pixelOf row column dx dy).x < w.width := by
    show 0 ≤ (8 * column + dx : Int) ∧ (8 * column + dx : Int) < w.width
    omega
  -- the pixel has ink of the cell it is in
  have hink : (∃ write ∈ writes, write.1 = pixelOf row column dx dy) ↔
      ∃ c, glyphs row column = some c ∧ inked hankaku c dx dy = true := by
    constructor
    · rintro ⟨write, hwrite, hpixel⟩
      obtain ⟨row', column', c, hglyph, dx', dy', hdx', hdy', hink, rfl⟩ := (hinks write).mp hwrite
      obtain ⟨rfl, rfl, rfl, rfl⟩ := (pixelOf_inj hdx' hdx hdy' hdy).mp hpixel
      exact ⟨c, hglyph, hink⟩
    · rintro ⟨c, hglyph, hink⟩
      exact ⟨_, (hinks _).mpr ⟨row, column, c, hglyph, dx, dy, hdx, hdy, hink, rfl⟩, rfl⟩
  rw [writeAll_getPixel hcolor hinside hp, h row hrow hrows column hcolumn dx hdx dy hdy]
  show _ = cellColor hankaku fgColor bgColor ((glyphs row column).or (cells row column)) dx dy
  cases hglyph : glyphs row column with
  | none =>
    rw [if_neg fun hex => by
      obtain ⟨c, hc, -⟩ := hink.mp hex
      rw [hglyph] at hc
      cases hc]
    rfl
  | some c =>
    rw [hglyph] at hink
    show _ = if inked hankaku c dx dy = true then fgColor else bgColor
    by_cases hc : inked hankaku c dx dy = true
    · rw [if_pos hc, if_pos (hink.mpr ⟨c, rfl, hc⟩)]
    · rw [if_neg hc, if_neg fun hex => by
        obtain ⟨c', hc', hink'⟩ := hink.mp hex
        cases hc'
        exact hc hink']
      rcases (hcells row column c hglyph).2 with hblank | hsame
      · rw [hblank]
        rfl
      · rw [hsame]
        exact if_neg hc

/-- Rows are cleared. -/
theorem Drawn.clear (h : Drawn hankaku fgColor bgColor w rows cells) (hsized : Sized w) {first n : Nat}
    (hrows : first + n ≤ kRows) :
    Drawn hankaku fgColor bgColor
      (w.writeAll (fillRectangle ⟨0, 16 * first⟩ ⟨8 * kColumns, 16 * n⟩ bgColor))
      (fun row => rows row ∨ first ≤ row ∧ row < first + n)
      fun row column => if first ≤ row ∧ row < first + n then none else cells row column := by
  have hwidth := hsized.width
  have hkRows : kRows = 25 := rfl
  have hkColumns : kColumns = 80 := rfl
  have hadd : ∀ dx dy : Int, 0 ≤ dx ∧ dx < 8 * kColumns → 0 ≤ dy ∧ dy < 16 * n →
      Vector2D.add32 ⟨0, 16 * first⟩ ⟨dx, dy⟩ = ⟨dx, 16 * first + dy⟩ := by
    intro dx dy hdx hdy
    rw [add32_eq (by dsimp only; omega) (by dsimp only; omega)]
    exact Vector2D.ext (Int.zero_add dx) rfl
  have hcolor : ∀ write ∈ fillRectangle ⟨0, 16 * first⟩ ⟨8 * kColumns, 16 * n⟩ bgColor, write.2 = bgColor := by
    intro write hwrite
    obtain ⟨_, _, _, _, rfl⟩ := mem_fillRectangle.mp hwrite
    rfl
  have hinside : ∀ write ∈ fillRectangle ⟨0, 16 * first⟩ ⟨8 * kColumns, 16 * n⟩ bgColor,
      0 ≤ write.1.x ∧ write.1.x < w.width := by
    intro write hwrite
    obtain ⟨dx, dy, hdx, hdy, rfl⟩ := mem_fillRectangle.mp hwrite
    rw [hadd dx dy hdx hdy]
    dsimp only at hdx ⊢
    omega
  intro row hrow hdrawn column hcolumn dx hdx dy hdy
  have hp : 0 ≤ (pixelOf row column dx dy).x ∧ (pixelOf row column dx dy).x < w.width := by
    show 0 ≤ (8 * column + dx : Int) ∧ (8 * column + dx : Int) < w.width
    omega
  have hfilled : (∃ write ∈ fillRectangle ⟨0, 16 * first⟩ ⟨8 * kColumns, 16 * n⟩ bgColor,
      write.1 = pixelOf row column dx dy) ↔ first ≤ row ∧ row < first + n := by
    constructor
    · rintro ⟨write, hwrite, hpixel⟩
      obtain ⟨dx', dy', hdx', hdy', rfl⟩ := mem_fillRectangle.mp hwrite
      rw [hadd dx' dy' hdx' hdy'] at hpixel
      have hy : 16 * (first : Int) + dy' = 16 * row + dy := congrArg Vector2D.y hpixel
      dsimp only at hdy'
      omega
    · intro hin
      have hx : 0 ≤ (8 * column + dx : Int) ∧ (8 * column + dx : Int) < 8 * kColumns := by omega
      have hy : 0 ≤ (16 * (row - first) + dy : Int) ∧ (16 * (row - first) + dy : Int) < 16 * n := by omega
      refine ⟨_, mem_fillRectangle.mpr ⟨_, _, hx, hy, rfl⟩, ?_⟩
      rw [hadd _ _ hx hy]
      apply Vector2D.ext
      · rfl
      · show 16 * (first : Int) + (16 * (row - first) + dy) = 16 * row + dy
        omega
  rw [writeAll_getPixel hcolor hinside hp]
  show _ = cellColor hankaku fgColor bgColor (if first ≤ row ∧ row < first + n then none else cells row column) dx dy
  by_cases hin : first ≤ row ∧ row < first + n
  · rw [if_pos (hfilled.mpr hin), if_pos hin]
    rfl
  · rw [if_neg (mt hfilled.mp hin), if_neg hin]
    exact h row hrow (hdrawn.resolve_right hin) column hcolumn dx hdx dy hdy

/-- All rows but the first go up. -/
theorem Drawn.moveUp (h : Drawn hankaku fgColor bgColor w (fun _ => True) cells) (hsized : Sized w) :
    Drawn hankaku fgColor bgColor (w.move ⟨0, 0⟩ ⟨⟨0, 16⟩, ⟨8 * kColumns, 16 * (kRows - 1 : Nat)⟩⟩)
      (fun row => row < kRows - 1) fun row => cells (row + 1) := by
  have hres := w.shadow_resolution
  have hwidth := hsized.width
  have hheight := hsized.height
  have hkRows : kRows = 25 := rfl
  have hkColumns : kColumns = 80 := rfl
  intro row hrow hlast column hcolumn dx hdx dy hdy
  have hmoved := @move_up_getPixel w ⟨0, 0⟩ (pixelOf row column dx dy)
    ⟨⟨0, 16⟩, ⟨8 * kColumns, 16 * (kRows - 1 : Nat)⟩⟩
    ⟨⟨by dsimp only; omega, by dsimp only; omega⟩, by dsimp only; omega, by dsimp only; omega⟩
    ⟨⟨by dsimp only; omega, by dsimp only; omega⟩, by dsimp only; omega, by dsimp only; omega⟩
    (by dsimp only; omega)
    ⟨by unfold pixelOf; dsimp only; omega, by unfold pixelOf; dsimp only; omega⟩
  have hto : (⟨0, 0⟩ : Vector2D) + pixelOf row column dx dy = pixelOf row column dx dy :=
    Vector2D.ext (Int.zero_add _) (Int.zero_add _)
  have hfrom : (⟨0, 16⟩ : Vector2D) + pixelOf row column dx dy = pixelOf (row + 1) column dx dy := by
    apply Vector2D.ext
    · exact Int.zero_add _
    · show (16 : Int) + (16 * row + dy) = 16 * (row + 1 : Nat) + dy
      omega
  rw [hto] at hmoved
  rw [hmoved]
  dsimp only
  rw [hfrom]
  exact h (row + 1) (by omega) trivial column hcolumn dx hdx dy hdy

end Drawing

/-! ## Strings of the buffer -/

section RowStrings

variable {cells : Nat → Option AsciiChar} {chars : List AsciiChar} {c : AsciiChar}

theorem stringFrom_getElem? {n column k : Nat} (h : (stringFrom cells column n)[k]? = some c) :
    cells (column + k) = some c := by
  induction n generalizing column k with
  | zero => simp [stringFrom] at h
  | succ n ih =>
    rw [stringFrom] at h
    cases hcell : cells column with
    | none => simp [hcell] at h
    | some first =>
      rw [hcell] at h
      cases k with
      | zero => rw [Nat.add_zero, hcell, ← h, List.getElem?_cons_zero]
      | succ k =>
        have hrest := @ih (column + 1) k h
        rwa [Nat.add_right_comm] at hrest

theorem length_stringFrom_le (n column : Nat) : (stringFrom cells column n).length ≤ n := by
  induction n generalizing column with
  | zero => exact Nat.le_refl 0
  | succ n ih =>
    rw [stringFrom]
    cases cells column with
    | none => exact Nat.zero_le _
    | some c => exact Nat.succ_le_succ (ih (column + 1))

theorem stringFrom_eq {n column : Nat} (h : ∀ k, cells (column + k) = chars[k]?) (hlength : chars.length ≤ n) :
    stringFrom cells column n = chars := by
  induction n generalizing column chars with
  | zero => rw [List.eq_nil_of_length_eq_zero (Nat.le_zero.mp hlength)]; rfl
  | succ n ih =>
    have hfirst := h 0
    rw [Nat.add_zero] at hfirst
    rw [stringFrom, hfirst]
    cases chars with
    | nil => rfl
    | cons c chars =>
      have hrest := @ih chars (column + 1) (fun k => by
        rw [Nat.add_assoc, Nat.add_comm 1 k, h (k + 1), List.getElem?_cons_succ]) (Nat.le_of_succ_le_succ hlength)
      rw [List.getElem?_cons_zero]
      exact congrArg (c :: ·) hrest

end RowStrings

/-! ## The console and its picture -/

section Pictured

variable {hankaku : Nat → UInt8} {fgColor bgColor : PixelColor} {w : Window} {cw : ConsoleWindow} {c : AsciiChar}
  {con : Console AsciiChar} {text : List AsciiChar} {cells buffer : Nat → Nat → Option AsciiChar}

/-- The text is on the console, and the window shows it. -/
structure Pictured (hankaku : Nat → UInt8) (cw : ConsoleWindow) (text : List AsciiChar) : Prop where
  shows : Shows newline cw.con text
  sized : Sized cw.window
  drawn : Drawn hankaku cw.fgColor cw.bgColor cw.window (fun _ => True) cw.con.buffer

theorem line_length_le (text : List AsciiChar) (row : Nat) :
    ((shown newline text).getD row []).length ≤ kColumns - 1 := by
  rw [shown_getD, List.length_take]
  exact Nat.min_le_left _ _

/-- There is always a NUL at the end of a row. -/
theorem shows_end (h : Shows newline con text) {row column : Nat} (hrow : row < kRows)
    (hcell : con.buffer row column = some c) : column < kColumns - 1 := by
  rw [h.cells row hrow] at hcell
  have hlt := (List.getElem?_eq_some_iff.mp hcell).1
  have hle := line_length_le text row
  omega

theorem rowString_eq (h : Shows newline con text) {row : Nat} (hrow : row < kRows) :
    rowString (con.buffer row) = (shown newline text).getD row [] := by
  have hle := line_length_le text row
  refine stringFrom_eq (fun k => ?_) (by omega)
  rw [Nat.zero_add]
  exact h.cells row hrow k

/-- The rows that the loop of `NewLine` has gone through are as they were moved. -/
theorem scrollRows (hsized : Sized w) (h : Drawn hankaku fgColor bgColor w (fun _ => True) cells)
    (hend : ∀ row < kRows, ∀ column c, buffer row column = some c → column < kColumns)
    (hmoved : ∀ row < kRows - 1, cells row = buffer (row + 1)) {n : Nat} (hn : n ≤ kRows - 1) :
    ((List.range n).foldl (scrollRow hankaku fgColor) (buffer, w)).1 = (List.range n).foldl copyUp buffer ∧
      Sized ((List.range n).foldl (scrollRow hankaku fgColor) (buffer, w)).2 ∧
      Drawn hankaku fgColor bgColor ((List.range n).foldl (scrollRow hankaku fgColor) (buffer, w)).2
        (fun _ => True) cells := by
  induction n with
  | zero => exact ⟨rfl, hsized, h⟩
  | succ n ih =>
    obtain ⟨hbuffer, hsized', hdrawn⟩ := ih (by omega)
    rw [List.range_succ, List.foldl_append, List.foldl_append, List.foldl_cons, List.foldl_nil, List.foldl_cons,
      List.foldl_nil]
    generalize (List.range n).foldl (scrollRow hankaku fgColor) (buffer, w) = s at hbuffer hsized' hdrawn ⊢
    have hkRows : kRows = 25 := rfl
    have hsource : copyUp s.1 n n = cells n := by
      rw [copyUp, Function.update_self, hbuffer, foldl_copyUp, if_neg (by omega), hmoved n (by omega)]
    refine ⟨by rw [scrollRow, hbuffer], hsized'.writeAll _, ?_⟩
    have hlength : (rowString (copyUp s.1 n n)).length ≤ 2 ^ 20 :=
      (length_stringFrom_le _ _).trans (by decide)
    -- the string is written over itself
    have hsame : ∀ row column c, rowGlyphs n (rowString (copyUp s.1 n n)) row column = some c →
        cells row column = some c := by
      intro row column c hglyph
      unfold rowGlyphs at hglyph
      split at hglyph
      · next hrow =>
        have hcell := stringFrom_getElem? hglyph
        rw [Nat.zero_add, hsource] at hcell
        rw [hrow, hcell]
      · cases hglyph
    have hink := hdrawn.ink hsized' (@inks_writeString hankaku fgColor n _ (by omega) hlength) (by
      intro row column c hglyph
      have hcell := hsame row column c hglyph
      have hrow : row = n := by
        unfold rowGlyphs at hglyph
        split at hglyph
        · assumption
        · cases hglyph
      rw [hrow, hmoved n (by omega)] at hcell
      exact ⟨hend (n + 1) (by omega) column c hcell, .inr (hsame row column c hglyph)⟩)
    have hcells : (fun row column => (rowGlyphs n (rowString (copyUp s.1 n n)) row column).or (cells row column)) =
        cells := by
      funext row column
      cases hglyph : rowGlyphs n (rowString (copyUp s.1 n n)) row column with
      | none => rfl
      | some c => exact (hsame row column c hglyph).symm
    rw [hcells] at hink
    exact hink

theorem Pictured.newLine (h : Pictured hankaku cw text) :
    Pictured hankaku (cw.newLine hankaku) (text ++ [newline]) := by
  have hshows := h.shows.newLine
  have hkRows : kRows = 25 := rfl
  unfold ConsoleWindow.newLine
  by_cases hroom : cw.con.cursorRow < kRows - 1
  · rw [if_pos hroom]
    have hcon : cw.con.newLine = { cw.con with cursorColumn := 0, cursorRow := cw.con.cursorRow + 1 } := if_pos hroom
    refine ⟨hshows, h.sized, ?_⟩
    show Drawn hankaku cw.fgColor cw.bgColor cw.window _ cw.con.newLine.buffer
    rw [hcon]
    exact h.drawn
  · rw [if_neg hroom]
    have hcon : cw.con.newLine = { cw.con with cursorColumn := 0, buffer := scroll cw.con.buffer } := if_neg hroom
    have hmoved := h.drawn.moveUp h.sized
    have hsized := h.sized.move ⟨0, 0⟩ ⟨⟨0, 16⟩, ⟨8 * kColumns, 16 * (kRows - 1 : Nat)⟩⟩
    have hcleared := @Drawn.clear hankaku cw.fgColor cw.bgColor _ _ _ hmoved hsized (kRows - 1) 1 (by omega)
    rw [Nat.cast_one, mul_one] at hcleared
    have hsizedCleared := hsized.writeAll (fillRectangle ⟨0, 16 * (kRows - 1 : Nat)⟩ ⟨8 * kColumns, 16⟩ cw.bgColor)
    dsimp only
    generalize (cw.window.move ⟨0, 0⟩ ⟨⟨0, 16⟩, ⟨8 * kColumns, 16 * (kRows - 1 : Nat)⟩⟩).writeAll
      (fillRectangle ⟨0, 16 * (kRows - 1 : Nat)⟩ ⟨8 * kColumns, 16⟩ cw.bgColor) = w at hcleared hsizedCleared ⊢
    have hall : Drawn hankaku cw.fgColor cw.bgColor w (fun _ => True)
        fun row column => if kRows - 1 ≤ row ∧ row < kRows - 1 + 1 then none else cw.con.buffer (row + 1) column :=
      fun row hrow _ => hcleared row hrow (by omega)
    have hend : ∀ row < kRows, ∀ column c, cw.con.buffer row column = some c → column < kColumns :=
      fun row hrow column c hc => Nat.lt_of_lt_of_le (shows_end h.shows hrow hc) (Nat.sub_le _ _)
    obtain ⟨hbuffer, hsized', hdrawn⟩ := scrollRows hsizedCleared hall hend (fun row hrow => by
      funext column
      rw [if_neg (by omega)]) (Nat.le_refl _)
    have hscroll : Function.update ((List.range (kRows - 1)).foldl (scrollRow hankaku cw.fgColor)
        (cw.con.buffer, w)).1 (kRows - 1) (fun _ => none) = scroll cw.con.buffer := by
      rw [hbuffer]
      rfl
    rw [hscroll]
    refine ⟨hcon ▸ hshows, hsized', hdrawn.congr (fun _ _ => id) fun row hrow column _ => ?_⟩
    show scroll cw.con.buffer row column = _
    rw [scroll_apply cw.con.buffer hrow column]
    by_cases hlast : row < kRows - 1
    · rw [if_pos hlast, if_neg (by omega)]
    · rw [if_neg hlast, if_pos (by omega)]

theorem Pictured.put (h : Pictured hankaku cw text) (c : AsciiChar) :
    Pictured hankaku (cw.put hankaku c) (text ++ [c]) := by
  have hshows := h.shows.put c
  have hkRows : kRows = 25 := rfl
  have hkColumns : kColumns = 80 := rfl
  unfold ConsoleWindow.put
  by_cases hc : c = newline
  · rw [if_pos hc, hc]
    exact h.newLine
  rw [if_neg hc]
  have hput : cw.con.put newline c = if cw.con.cursorColumn < kColumns - 1 then
      { cw.con with
        buffer := Function.update cw.con.buffer cw.con.cursorRow
          (Function.update (cw.con.buffer cw.con.cursorRow) cw.con.cursorColumn (some c))
        cursorColumn := cw.con.cursorColumn + 1 } else cw.con := if_neg hc
  by_cases hroom : cw.con.cursorColumn < kColumns - 1
  · rw [if_pos hroom]
    rw [if_pos hroom] at hput
    have hrow : cw.con.cursorRow < kRows := by
      have hlength := h.shows.cursorRow
      rw [shown_length] at hlength
      omega
    -- the cell at the cursor is blank
    have hblank : cw.con.buffer cw.con.cursorRow cw.con.cursorColumn = none := by
      rw [h.shows.cells _ hrow, h.shows.cursorColumn]
      exact List.getElem?_eq_none (Nat.le_refl _)
    have hink := h.drawn.ink h.sized (@inks_writeAscii hankaku cw.fgColor cw.con.cursorRow cw.con.cursorColumn c
      (by omega) (by omega)) (by
        intro row column c' hglyph
        unfold oneGlyph at hglyph
        split at hglyph
        · next hcell =>
          obtain ⟨rfl, rfl⟩ := hcell
          exact ⟨by omega, .inl hblank⟩
        · cases hglyph)
    refine ⟨hshows, h.sized.writeAll _, hink.congr (fun _ _ => id) fun row _ column _ => ?_⟩
    show (cw.con.put newline c).buffer row column = _
    rw [hput]
    show Function.update cw.con.buffer cw.con.cursorRow _ row column = _
    unfold oneGlyph
    by_cases heq : row = cw.con.cursorRow
    · subst heq
      rw [Function.update_self, Function.update_apply]
      by_cases hat : column = cw.con.cursorColumn
      · rw [if_pos hat, if_pos ⟨rfl, hat⟩]
        rfl
      · rw [if_neg hat, if_neg fun hcell => hat hcell.2]
        rfl
    · rw [Function.update_of_ne heq, if_neg fun hcell => heq hcell.1]
      rfl
  · rw [if_neg hroom]
    rw [if_neg hroom] at hput
    exact ⟨hput ▸ hshows, h.sized, h.drawn⟩

theorem Pictured.putString (h : Pictured hankaku cw text) (s : List AsciiChar) :
    Pictured hankaku (cw.putString hankaku s) (text ++ s) := by
  induction s generalizing cw text with
  | nil =>
    rw [List.append_nil]
    exact h
  | cons c s ih =>
    rw [List.append_cons]
    exact ih (h.put c)

/-- The rows that the loop of `Refresh` has gone through are drawn, and the others are blank. -/
theorem refreshRows (hsized : Sized w) (h : Drawn hankaku fgColor bgColor w (fun _ => True) fun _ _ => none)
    (hshows : Shows newline con text) {n : Nat} (hn : n ≤ kRows) :
    Sized ((List.range n).foldl (fun window (row : Nat) =>
        window.writeAll (writeString hankaku ⟨0, 16 * row⟩ fgColor 0 (rowString (con.buffer row)))) w) ∧
      Drawn hankaku fgColor bgColor ((List.range n).foldl (fun window (row : Nat) =>
        window.writeAll (writeString hankaku ⟨0, 16 * row⟩ fgColor 0 (rowString (con.buffer row)))) w)
        (fun _ => True) fun row column => if row < n then con.buffer row column else none := by
  have hkRows : kRows = 25 := rfl
  have hkColumns : kColumns = 80 := rfl
  induction n with
  | zero => exact ⟨hsized, h⟩
  | succ n ih =>
    obtain ⟨hsized', hdrawn⟩ := ih (by omega)
    rw [List.range_succ, List.foldl_append, List.foldl_cons, List.foldl_nil]
    have hrow : rowString (con.buffer n) = (shown newline text).getD n [] := rowString_eq hshows (by omega)
    have hle := line_length_le text n
    have hglyph : ∀ column, (rowString (con.buffer n))[column]? = con.buffer n column := by
      intro column
      rw [hrow, hshows.cells n (by omega)]
    have hink := hdrawn.ink hsized' (@inks_writeString hankaku fgColor n (rowString (con.buffer n)) (by omega)
      (by rw [hrow]; omega)) (by
        intro row column c hc
        unfold rowGlyphs at hc
        split at hc
        · next heq =>
          rw [hglyph] at hc
          have hend := shows_end hshows (by omega) hc
          exact ⟨by omega, .inl (if_neg (by omega))⟩
        · cases hc)
    refine ⟨hsized'.writeAll _, ?_⟩
    have hcells : (fun row column => (rowGlyphs n (rowString (con.buffer n)) row column).or
        (if row < n then con.buffer row column else none)) =
          fun row column => if row < n + 1 then con.buffer row column else none := by
      funext row column
      unfold rowGlyphs
      by_cases heq : row = n
      · rw [if_pos heq, hglyph, heq, if_neg (Nat.lt_irrefl n), if_pos (Nat.lt_succ_self n), Option.or_none]
      · rw [if_neg heq, Option.none_or]
        by_cases hlt : row < n
        · rw [if_pos hlt, if_pos (by omega)]
        · rw [if_neg hlt, if_neg (by omega)]
    rw [← hcells]
    exact hink

theorem setWindow_pictured (hankaku : Nat → UInt8) (hsized : Sized w) (hshows : Shows newline con text)
    (fgColor bgColor : PixelColor) : Pictured hankaku (setWindow hankaku con w fgColor bgColor) text := by
  have hkRows : kRows = 25 := rfl
  have hblank : Drawn hankaku fgColor bgColor w (fun _ => False) fun _ _ => none := fun _ _ hno => hno.elim
  have hcleared := @Drawn.clear hankaku fgColor bgColor w _ _ hblank hsized 0 kRows (by omega)
  have hall : Drawn hankaku fgColor bgColor (w.writeAll (fillRectangle ⟨0, 0⟩ ⟨8 * kColumns, 16 * kRows⟩ bgColor))
      (fun _ => True) fun _ _ => none :=
    hcleared.congr (fun row hrow _ => .inr (by omega)) fun row hrow _ _ => (if_pos (by omega)).symm
  obtain ⟨hsized', hdrawn⟩ := refreshRows (hsized.writeAll _) hall hshows (Nat.le_refl kRows)
  exact ⟨hshows, hsized', hdrawn.congr (fun _ _ => id) fun row hrow _ _ => (if_pos hrow).symm⟩

theorem Pictured.putStrings (h : Pictured hankaku cw text) (strings : List (List AsciiChar)) :
    Pictured hankaku (strings.foldl (ConsoleWindow.putString hankaku) cw) (text ++ strings.flatten) := by
  induction strings generalizing cw text with
  | nil =>
    rw [List.flatten_nil, List.append_nil]
    exact h
  | cons s strings ih =>
    rw [List.flatten_cons, ← List.append_assoc]
    exact ih (h.putString s)

theorem color_put (hankaku : Nat → UInt8) (cw : ConsoleWindow) (c : AsciiChar) :
    (cw.put hankaku c).fgColor = cw.fgColor ∧ (cw.put hankaku c).bgColor = cw.bgColor := by
  unfold ConsoleWindow.put ConsoleWindow.newLine
  split
  · split <;> exact ⟨rfl, rfl⟩
  · split <;> exact ⟨rfl, rfl⟩

theorem color_putStrings (hankaku : Nat → UInt8) (cw : ConsoleWindow) (strings : List (List AsciiChar)) :
    (strings.foldl (ConsoleWindow.putString hankaku) cw).fgColor = cw.fgColor ∧
      (strings.foldl (ConsoleWindow.putString hankaku) cw).bgColor = cw.bgColor := by
  have hstring : ∀ (s : List AsciiChar) (cw : ConsoleWindow),
      (cw.putString hankaku s).fgColor = cw.fgColor ∧ (cw.putString hankaku s).bgColor = cw.bgColor := by
    intro s
    induction s with
    | nil => exact fun cw => ⟨rfl, rfl⟩
    | cons c s ih =>
      intro cw
      have hput := color_put hankaku cw c
      exact ⟨(ih (cw.put hankaku c)).1.trans hput.1, (ih (cw.put hankaku c)).2.trans hput.2⟩
  induction strings generalizing cw with
  | nil => exact ⟨rfl, rfl⟩
  | cons s strings ih =>
    have hrest := ih (cw.putString hankaku s)
    exact ⟨hrest.1.trans (hstring s cw).1, hrest.2.trans (hstring s cw).2⟩

/-- **The window shows the end of the log.**  The console gets its window after some strings, and others follow: each
pixel of each cell is that of the character there in the last 25 lines of the whole text, or of the background. -/
theorem console_pictured (hankaku : Nat → UInt8) (fgColor bgColor : PixelColor) (shadowFormat : PixelFormat)
    (before after : List (List AsciiChar)) {row column dx dy : Nat} (hrow : row < kRows) (hcolumn : column < kColumns)
    (hdx : dx < 8) (hdy : dy < 16) :
    (after.foldl (putString hankaku) (setWindow hankaku (before.foldl (Console.putString newline) Console.new)
        (Window.new (8 * kColumns) (16 * kRows) shadowFormat) fgColor bgColor)).window.shadowBuffer.getPixel
          (pixelOf row column dx dy) =
      cellColor hankaku fgColor bgColor
        ((shown newline (before ++ after).flatten).getD row [])[column]? dx dy := by
  have hbefore := (new_shows newline).putStrings before
  have hstart := setWindow_pictured hankaku
    (w := Window.new (8 * kColumns) (16 * kRows) shadowFormat) rfl hbefore fgColor bgColor
  have hpictured := hstart.putStrings after
  rw [List.nil_append, ← List.flatten_append] at hpictured
  obtain ⟨hfg, hbg⟩ := color_putStrings hankaku
    (setWindow hankaku (before.foldl (Console.putString newline) Console.new)
      (Window.new (8 * kColumns) (16 * kRows) shadowFormat) fgColor bgColor) after
  have hpixel := hpictured.drawn row hrow trivial column hcolumn dx hdx dy hdy
  rw [hfg, hbg, hpictured.shows.cells row hrow] at hpixel
  exact hpixel

/-- In a font of full blocks an `a` on the second line is a block of the foreground. -/
theorem secondLine_pictured :
    ((putString (fun _ => 0xff) (setWindow (fun _ => 0xff) (Console.new.putString newline [newline])
        (Window.new (8 * kColumns) (16 * kRows) .kPixelRGBResv8BitPerColor) ⟨0, 0, 0⟩ ⟨255, 255, 255⟩)
          [⟨97, by decide⟩]).window.shadowBuffer.getPixel (pixelOf 1 0 3 5)) = ⟨0, 0, 0⟩ := by
  have hcell : ((shown newline ([[newline]] ++ [[(⟨97, by decide⟩ : AsciiChar)]]).flatten).getD 1 [])[0]? =
      some ⟨97, by decide⟩ := by decide
  have hpixel := console_pictured (fun _ => 0xff) ⟨0, 0, 0⟩ ⟨255, 255, 255⟩ .kPixelRGBResv8BitPerColor [[newline]]
    [[⟨97, by decide⟩]] (show 1 < kRows by decide) (show 0 < kColumns by decide) (show 3 < 8 by decide)
    (show 5 < 16 by decide)
  rw [hcell] at hpixel
  exact hpixel

end Pictured

end ConsoleWindow

end MikanSaos
