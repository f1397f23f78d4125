import MikanSaos.Graphics.Window
import MikanSaos.Reasoning.Rounding
import MikanSaos.Word64

/-!
# DrawingCalls — the system calls by which an application draws into a window

A call is the sequence of the `Window::Write`s that it makes, each with its colour; a loop that wraps around
makes infinitely many.  `int` arithmetic wraps, and a `double` is a rational of 53 significant bits, or `none`
where it is not finite.  Strings are of ASCII characters, and the bytes of `hankaku.bin` are a parameter.
-/

open Reasoning

namespace MikanSaos

/-- `kHeapFrames * kBytesPerFrame` -/
def heapBytes : Nat := 64 * 512 * 4096

/-- A window that a layer shows.  `_data` has three bytes for each pixel, in the kernel's heap. -/
structure OpenWindow extends Window where
  width_int : width < 2 ^ 31
  height_int : height < 2 ^ 31
  stored : 3 * (width * height) ≤ heapBytes

abbrev Write := Vector2D × PixelColor

/-! ## `int` -/

/-- `abs` -/
def abs32 (n : Int) : Int := int32 (if n < 0 then -n else n)

/-- `operator+` -/
def Vector2D.add32 (lhs rhs : Vector2D) : Vector2D := ⟨int32 (lhs.x + rhs.x), int32 (lhs.y + rhs.y)⟩

/-- An argument of a system call, as an `int`. -/
def intArg (arg : BitVec 64) : Int := (arg.setWidth 32).toInt

def toColor (c : BitVec 32) : PixelColor :=
  ⟨.ofBitVec ((c >>> 16).setWidth 8), .ofBitVec ((c >>> 8).setWidth 8), .ofBitVec (c.setWidth 8)⟩

/-! ## Rectangles -/

def fillRectangle (pos size : Vector2D) (c : PixelColor) : List Write :=
  (Int.range 0 size.y).flatMap fun dy => (Int.range 0 size.x).map fun dx => (pos.add32 ⟨dx, dy⟩, c)

/-! ## Strings -/

/-- A character that ends no string, and that `ConvertUTF8To32` takes by itself. -/
abbrev AsciiChar := { c : UInt8 // 0 < c ∧ c < 0x80 }

/-- `(font[dy] << dx) & 0x80u` of the font of `c` -/
def inked (hankaku : Nat → UInt8) (c : AsciiChar) (dx dy : Nat) : Bool :=
  (hankaku (16 * c.val.toNat + dy)).toNat <<< dx &&& 0x80 ≠ 0

def writeAscii (hankaku : Nat → UInt8) (pos : Vector2D) (c : AsciiChar) (color : PixelColor) : List Write :=
  (List.range 16).flatMap fun dy =>
    ((List.range 8).filter fun dx => inked hankaku c dx dy).map fun (dx : Nat) => (pos.add32 ⟨dx, dy⟩, color)

/-- The loop of `WriteString`, from `pos_x` on: `WriteUnicode` writes an ASCII character by `WriteAscii`. -/
def writeString (hankaku : Nat → UInt8) (pos : Vector2D) (color : PixelColor) : Int → List AsciiChar → List Write
  | _, [] => []
  | posX, c :: s =>
    writeAscii hankaku (pos.add32 ⟨int32 (8 * posX), 0⟩) c color ++
      writeString hankaku pos color (int32 (posX + 1)) s

/-! ## Lines -/

/-- `x1 - x0 + sign(x1 - x0)` -/
def extent (x0 x1 : Int) : Int := int32 (int32 (x1 - x0) + (int32 (x1 - x0)).sign)

/-- `static_cast<double>(dy) / dx` -/
def slope (dy dx : Int) : Option ℚ := if dx = 0 then none else some (roundTo 53 (dy / dx))

/-- A `double` with no fraction converted to `int`. -/
def toInt (n : Option Int) : Int :=
  match n with
  | some n => if -2 ^ 31 ≤ n ∧ n < 2 ^ 31 then n else -2 ^ 31
  | none => -2 ^ 31

/-- `roundish(m * (x - x0) + y0)`, with what `roundish` is for this line. -/
def minorAt (m : Option ℚ) (x0 y0 y1 x : Int) : Int :=
  toInt (m.map fun m =>
    let y := roundTo 53 (roundTo 53 (m * int32 (x - x0)) + y0)
    if y1 ≥ y0 then ⌊y⌋ else ⌈y⌉)

/-- The `x` of the `n`-th round of `for (int x = x0; x <= x1; ++x)`. -/
def scan (x0 x1 : Int) : Nat → Option Int
  | 0 => if x0 ≤ x1 then some x0 else none
  | n + 1 => (scan x0 x1 n).bind fun x => if int32 (x + 1) ≤ x1 then some (int32 (x + 1)) else none

def lineFrom (m : Option ℚ) (x0 y0 x1 y1 : Int) (n : Nat) : Option (Int × Int) :=
  (scan x0 x1 n).map fun x => (x, minorAt m x0 y0 y1 x)

/-- A branch of `WinDrawLine`, with `x` for the coordinate that the loop counts. -/
def lineAlong (x0 y0 x1 y1 dx dy : Int) : Nat → Option (Int × Int) :=
  if dx < 0 then lineFrom (slope dy dx) x1 y1 x0 y0 else lineFrom (slope dy dx) x0 y0 x1 y1

def drawLine (x0 y0 x1 y1 : Int) (color : PixelColor) (n : Nat) : Option Write :=
  let dx := extent x0 x1
  let dy := extent y0 y1
  if dx = 0 ∧ dy = 0 then [(⟨x0, y0⟩, color)][n]?
  else if abs32 dx ≥ abs32 dy then
    (lineAlong x0 y0 x1 y1 dx dy n).map fun p => (⟨p.1, p.2⟩, color)
  else
    (lineAlong y0 x0 y1 x1 dy dx n).map fun p => (⟨p.2, p.1⟩, color)

/-! ## The calls -/

inductive DrawingCall where
  | winWriteString (arg1 arg2 arg3 arg4 : BitVec 64) (s : List AsciiChar)
  | winFillRectangle (arg1 arg2 arg3 arg4 arg5 arg6 : BitVec 64)
  | winDrawLine (arg1 arg2 arg3 arg4 arg5 arg6 : BitVec 64)

namespace DrawingCall

def flagsAndLayerId : DrawingCall → BitVec 64
  | winWriteString arg1 .. => arg1
  | winFillRectangle arg1 .. => arg1
  | winDrawLine arg1 .. => arg1

def layerId (call : DrawingCall) : BitVec 32 := call.flagsAndLayerId.setWidth 32

/-- The `n`-th write of the call, if it makes so many. -/
def writes (hankaku : Nat → UInt8) (call : DrawingCall) (n : Nat) : Option Write :=
  match call with
  | winWriteString _ arg2 arg3 arg4 s =>
    (writeString hankaku ⟨intArg arg2, intArg arg3⟩ (toColor (arg4.setWidth 32)) 0 s)[n]?
  | winFillRectangle _ arg2 arg3 arg4 arg5 arg6 =>
    (fillRectangle ⟨intArg arg2, intArg arg3⟩ ⟨intArg arg4, intArg arg5⟩ (toColor (arg6.setWidth 32)))[n]?
  | winDrawLine _ arg2 arg3 arg4 arg5 arg6 =>
    drawLine (intArg arg2) (intArg arg3) (intArg arg4) (intArg arg5) (toColor (arg6.setWidth 32)) n

/-- `DoWinFunc`: the window and what is written to it, or the error. -/
def doWinFunc (hankaku : Nat → UInt8) (findLayer : BitVec 32 → Option OpenWindow) (call : DrawingCall) :
    Except Nat (OpenWindow × (Nat → Option Write)) :=
  match findLayer call.layerId with
  | none => .error EBADF
  | some win => .ok (win, call.writes hankaku)

end DrawingCall

end MikanSaos
