import MikanSaos.Graphics.DrawingCalls

/-!
# LineBounds — which lines stay inside the window

The coordinates of a line are computed in floating point.  Times the length of the line the error stays below
one, because the pixels of the window are in memory: so the last pixel is the end point, and the others lie
between the two ends.
-/

open Reasoning

namespace MikanSaos

/-! ## `int` -/

theorem int32_of_mem {n : Int} (h : -2 ^ 31 ≤ n ∧ n < 2 ^ 31) : int32 n = n := by
  unfold int32
  omega

theorem int32_mem (n : Int) : -2 ^ 31 ≤ int32 n ∧ int32 n < 2 ^ 31 := by
  unfold int32
  omega

theorem intArg_mem (arg : BitVec 64) : -2 ^ 31 ≤ intArg arg ∧ intArg arg < 2 ^ 31 :=
  ⟨BitVec.le_toInt _, BitVec.toInt_lt⟩

/-- A number is inside a range of `int`s when it is so after it has wrapped around, if it started at an `int`
and did not go far. -/
theorem int32_add_inside {a d len : Int} (ha : -2 ^ 31 ≤ a ∧ a < 2 ^ 31) (hd : 0 ≤ d ∧ d < 2 ^ 31) (hlen : len ≤ 2 ^ 31) :
    0 ≤ int32 (a + d) ∧ int32 (a + d) < len ↔ 0 ≤ a + d ∧ a + d < len := by
  unfold int32
  omega

theorem extent_eq {a b : Int} (h : -(2 ^ 31 - 1) < b - a ∧ b - a < 2 ^ 31 - 1) :
    extent a b = b - a + (b - a).sign := by
  have hdiff : int32 (b - a) = b - a := int32_of_mem (by omega)
  rw [extent, hdiff]
  apply int32_of_mem
  rcases Int.lt_trichotomy (b - a) 0 with hneg | hzero | hpos
  · rw [Int.sign_eq_neg_one_of_neg hneg]
    omega
  · rw [hzero]
    decide
  · rw [Int.sign_eq_one_of_pos hpos]
    omega

theorem sign_cases (n : Int) : n < 0 ∧ n.sign = -1 ∨ n = 0 ∧ n.sign = 0 ∨ 0 < n ∧ n.sign = 1 := by
  rcases Int.lt_trichotomy n 0 with hneg | rfl | hpos
  · exact .inl ⟨hneg, Int.sign_eq_neg_one_of_neg hneg⟩
  · exact .inr (.inl ⟨rfl, rfl⟩)
  · exact .inr (.inr ⟨hpos, Int.sign_eq_one_of_pos hpos⟩)

theorem extent_eq_zero {a b : Int} (ha : -2 ^ 31 ≤ a ∧ a < 2 ^ 31) (hb : -2 ^ 31 ≤ b ∧ b < 2 ^ 31) :
    extent a b = 0 ↔ a = b := by
  have hsign := sign_cases (int32 (b - a))
  unfold extent
  unfold int32 at *
  omega

/-! ## One coordinate of a line -/

/-- The value that is rounded to a pixel, of a line that goes `num` up in `den`. -/
def lineValue (num den j b : Int) : ℚ := roundTo 53 (roundTo 53 (roundTo 53 (num / den) * j) + b)

/-- The error of the value, times the length of the line. -/
theorem lineValue_near {num den j b c : Int} (hden : 0 < den) (hj : 0 ≤ j ∧ j ≤ den)
    (hsmall : den * (7 * |num| + |b|) < c * 2 ^ 53) :
    |lineValue num den j b * den - (num * j + b * den)| < c := by
  have hd : (0 : ℚ) < den := by exact_mod_cast hden
  have hj' : |(j : ℚ) / den| ≤ 1 := by
    rw [abs_of_nonneg (div_nonneg (by exact_mod_cast hj.1) hd.le), div_le_one hd]
    exact_mod_cast hj.2
  have hnum : |(num : ℚ) / den * j| ≤ |(num : ℚ)| := by
    rw [div_mul_eq_mul_div, mul_div_assoc, abs_mul]
    exact mul_le_of_le_one_right (abs_nonneg _) hj'
  have herror : |lineValue num den j b - ((num : ℚ) / den * j + b)| ≤ (7 * |(num : ℚ)| + |(b : ℚ)|) / 2 ^ 53 := by
    apply (abs_roundTo_mul_add_sub_le 53 (num / den) j b).trans
    apply div_le_div_of_nonneg_right _ (by positivity)
    linarith
  have hscale : lineValue num den j b * den - (num * j + b * den) =
      (lineValue num den j b - ((num : ℚ) / den * j + b)) * den := by
    field_simp
  have hsmall' : (den : ℚ) * (7 * |(num : ℚ)| + |(b : ℚ)|) < c * 2 ^ 53 := by exact_mod_cast hsmall
  rw [hscale, abs_mul, abs_of_pos hd]
  calc |lineValue num den j b - ((num : ℚ) / den * j + b)| * den
      ≤ (7 * |(num : ℚ)| + |(b : ℚ)|) / 2 ^ 53 * den := mul_le_mul_of_nonneg_right herror hd.le
    _ = den * (7 * |(num : ℚ)| + |(b : ℚ)|) / 2 ^ 53 := by ring
    _ < c := (div_lt_iff₀ (by positivity)).mpr hsmall'

section

variable {num den j b c n : Int} (hden : 0 < den) (hj : 0 ≤ j ∧ j ≤ den)
  (hsmall : den * (7 * |num| + |b|) < c * 2 ^ 53)
include hden hj hsmall

theorem lt_lineValue (h : n * den ≤ num * j + b * den - c) : (n : ℚ) < lineValue num den j b := by
  have hd : (0 : ℚ) < den := by exact_mod_cast hden
  have hnear := (abs_lt.mp (lineValue_near hden hj hsmall)).1
  have h' : (n : ℚ) * den ≤ num * j + b * den - c := by exact_mod_cast h
  apply lt_of_mul_lt_mul_right _ hd.le
  linarith

theorem lineValue_lt (h : num * j + b * den + c ≤ n * den) : lineValue num den j b < n := by
  have hd : (0 : ℚ) < den := by exact_mod_cast hden
  have hnear := (abs_lt.mp (lineValue_near hden hj hsmall)).2
  have h' : (num : ℚ) * j + b * den + c ≤ n * den := by exact_mod_cast h
  apply lt_of_mul_lt_mul_right _ hd.le
  linarith

end

/-- At the first pixel of a line, and on a level one, nothing is rounded. -/
theorem lineValue_start {num den j b : Int} (h : num = 0 ∨ j = 0) (hb : |b| < 2 ^ 53) :
    lineValue num den j b = b := by
  have hzero : roundTo 53 (roundTo 53 ((num : ℚ) / den) * j) = 0 := by
    rcases h with rfl | rfl
    · rw [Int.cast_zero, zero_div, roundTo_zero, zero_mul, roundTo_zero]
    · rw [Int.cast_zero, mul_zero, roundTo_zero]
  rw [lineValue, hzero, zero_add, roundTo_intCast hb]

/-- Nor is anything on a diagonal. -/
theorem lineValue_diagonal {den s j b : Int} (hden : 0 < den) (hs : |s| = 1) (hj : |j| < 2 ^ 53)
    (hb : |s * j + b| < 2 ^ 53) : lineValue (s * den) den j b = (s * j + b : Int) := by
  have hd : (den : ℚ) ≠ 0 := by exact_mod_cast hden.ne'
  have hslope : ((s * den : Int) : ℚ) / den = s := by
    push_cast
    rw [mul_div_assoc, div_self hd, mul_one]
  have hsj : |s * j| < 2 ^ 53 := by rw [abs_mul, hs, one_mul]; exact hj
  rw [lineValue, hslope, roundTo_intCast (by rw [hs]; norm_num), ← Int.cast_mul, roundTo_intCast hsj, ← Int.cast_add,
    roundTo_intCast hb]

/-- The pixel that a value is rounded to. -/
def pixelOf (down : Prop) [Decidable down] (v : ℚ) : Int := if down then ⌊v⌋ else ⌈v⌉

section

variable (down : Prop) [Decidable down] {v : ℚ} {n len : Int}

@[simp] theorem pixelOf_intCast : pixelOf down (n : ℚ) = n := by
  unfold pixelOf
  split
  · exact Int.floor_intCast n
  · exact Int.ceil_intCast n

theorem le_pixelOf (h : (n : ℚ) < v) : n ≤ pixelOf down v := by
  unfold pixelOf
  split
  · exact Int.le_floor.mpr h.le
  · exact (Int.lt_ceil.mpr h).le

theorem pixelOf_le (h : v < (n : ℚ)) : pixelOf down v ≤ n := by
  unfold pixelOf
  split
  · exact (Int.floor_lt.mpr h).le
  · exact Int.ceil_le.mpr h.le

theorem pixelOf_lt (hdown : down) (h : v < (n : ℚ)) : pixelOf down v < n := by
  rw [pixelOf, if_pos hdown]
  exact Int.floor_lt.mpr h

theorem lt_pixelOf (hup : ¬ down) (h : (n : ℚ) < v) : n < pixelOf down v := by
  rw [pixelOf, if_neg hup]
  exact Int.lt_ceil.mpr h

/-- Converting to `int` brings no pixel into a window. -/
theorem toInt_inside (hlen : len ≤ 2 ^ 31) : 0 ≤ toInt (some n) ∧ toInt (some n) < len ↔ 0 ≤ n ∧ n < len := by
  unfold toInt
  dsimp only
  split <;> omega

end

/-! ## A line between two points -/

/-- A line that goes from the row `y0` of a window, in `den` columns, to `y1`. -/
structure Segment (width height x0 y0 x1 y1 num den : Int) : Prop where
  start : 0 ≤ x0
  forward : x0 < x1
  stop : x1 < width
  row : 0 ≤ y0 ∧ y0 < height
  height_int : height ≤ 2 ^ 31
  stored : width * height ≤ 2 ^ 27
  den_eq : den = x1 - x0 + 1
  num_eq : num = y1 - y0 + (y1 - y0).sign
  flat : |num| ≤ den

namespace Segment

variable {width height x0 y0 x1 y1 num den : Int} (h : Segment width height x0 y0 x1 y1 num den)
include h

theorem width_le : width ≤ 2 ^ 27 ∧ height ≤ 2 ^ 27 := by
  have := h.start
  have := h.forward
  have := h.stop
  have := h.row
  constructor
  · nlinarith [h.stored]
  · nlinarith [h.stored]

theorem den_le : 0 < den ∧ den ≤ width := by
  have := h.den_eq
  have := h.start
  have := h.forward
  have := h.stop
  omega

/-- The error stays below one pixel's share where the line climbs no more than the window is high. -/
theorem small (hnum : |num| ≤ height + 1) : den * (7 * |num| + |y0|) < 1 * 2 ^ 53 := by
  have hy := h.row
  have hheight : 7 * |num| + |y0| ≤ 15 * height := by
    rw [abs_of_nonneg hy.1]
    omega
  calc den * (7 * |num| + |y0|) ≤ width * (15 * height) :=
        mul_le_mul h.den_le.2 hheight (by positivity) (by have := h.den_le; omega)
    _ = 15 * (width * height) := by ring
    _ ≤ 15 * 2 ^ 27 := by have := h.stored; omega
    _ < 1 * 2 ^ 53 := by norm_num

/-- And below one pixel in any case. -/
theorem small_den : den * (7 * |num| + |y0|) < den * 2 ^ 53 := by
  apply mul_lt_mul_of_pos_left _ h.den_le.1
  rw [abs_of_nonneg h.row.1]
  have := h.row
  have := h.flat
  have := h.den_le
  have := h.width_le
  omega

/-- Every pixel of the line lies between its two ends. -/
theorem inside {x : Int} (hx : x0 ≤ x ∧ x ≤ x1) (hy1 : 0 ≤ y1 ∧ y1 < height) :
    0 ≤ pixelOf (y1 ≥ y0) (lineValue num den (x - x0) y0) ∧
      pixelOf (y1 ≥ y0) (lineValue num den (x - x0) y0) < height := by
  have hy0 := h.row
  have hden := h.den_eq
  have hj : 0 ≤ x - x0 ∧ x - x0 ≤ den := by omega
  have habs : |y0| < 2 ^ 53 := by
    have := h.height_int
    rw [abs_of_nonneg hy0.1]
    omega
  rcases sign_cases (y1 - y0) with ⟨hk, hsign⟩ | ⟨hk, hsign⟩ | ⟨hk, hsign⟩
  all_goals have hnum := h.num_eq; rw [hsign] at hnum
  · -- downwards in the numbers: `ceil`
    by_cases hzero : x - x0 = 0
    · rw [lineValue_start (.inr hzero) habs, pixelOf_intCast]
      exact hy0
    · have hsmall := h.small (by rw [abs_of_neg (by omega)]; omega)
      have hclimb : num * (x - x0) ≤ -1 := by nlinarith [show num ≤ -1 by omega, show 1 ≤ x - x0 by omega]
      have hupper := lineValue_lt (n := y0) h.den_le.1 hj hsmall (by omega)
      have hlower := lt_lineValue (n := y1 - 1) h.den_le.1 hj hsmall (by nlinarith)
      have := pixelOf_le (y1 ≥ y0) hupper
      have := lt_pixelOf (y1 ≥ y0) (by omega) hlower
      omega
  · rw [lineValue_start (.inl (by omega)) habs, pixelOf_intCast]
    exact hy0
  · by_cases hzero : x - x0 = 0
    · rw [lineValue_start (.inr hzero) habs, pixelOf_intCast]
      exact hy0
    · have hsmall := h.small (by rw [abs_of_pos (by omega)]; omega)
      have hclimb : 1 ≤ num * (x - x0) := by nlinarith [show 1 ≤ num by omega, show 1 ≤ x - x0 by omega]
      have hlower := lt_lineValue (n := y0) h.den_le.1 hj hsmall (by omega)
      have hupper := lineValue_lt (n := y1 + 1) h.den_le.1 hj hsmall (by nlinarith)
      have := le_pixelOf (y1 ≥ y0) hlower
      have := pixelOf_lt (y1 ≥ y0) (by omega) hupper
      omega

/-- The last pixel of a line that ends outside is outside. -/
theorem last_outside (hy1 : ¬ (0 ≤ y1 ∧ y1 < height)) :
    ¬ (0 ≤ pixelOf (y1 ≥ y0) (lineValue num den (x1 - x0) y0) ∧
      pixelOf (y1 ≥ y0) (lineValue num den (x1 - x0) y0) < height) := by
  have hy0 := h.row
  have hden := h.den_eq
  have hflat := h.flat
  have hsize := h.width_le
  have hlen := h.den_le
  have hj : 0 ≤ x1 - x0 ∧ x1 - x0 ≤ den := by have := h.forward; omega
  rcases sign_cases (y1 - y0) with ⟨hk, hsign⟩ | ⟨hk, hsign⟩ | ⟨hk, hsign⟩
  all_goals have hnum := h.num_eq; rw [hsign] at hnum
  · have habs : |num| = -num := abs_of_neg (by omega)
    have hend : num * (x1 - x0) = y1 * den - y0 * den - den - num := by
      rw [show x1 - x0 = den - 1 by omega, show y1 = num + y0 + 1 by omega]
      ring
    by_cases hdiagonal : num = -1 * den
    · have hlast : -1 * (x1 - x0) + y0 = y1 := by omega
      rw [hdiagonal, lineValue_diagonal hlen.1 (by decide) (by rw [abs_of_nonneg hj.1]; omega)
        (by rw [abs_lt]; omega), hlast, pixelOf_intCast]
      exact hy1
    by_cases hnear : -(y1 - y0) ≤ height
    · have hvalue := lineValue_lt (n := y1) hlen.1 hj (h.small (by omega)) (by omega)
      have := pixelOf_le (y1 ≥ y0) hvalue
      omega
    · have hvalue := lineValue_lt (n := -1) hlen.1 hj h.small_den (by nlinarith)
      have := pixelOf_le (y1 ≥ y0) hvalue
      omega
  · omega
  · have habs : |num| = num := abs_of_pos (by omega)
    have hend : num * (x1 - x0) = y1 * den - y0 * den + den - num := by
      rw [show x1 - x0 = den - 1 by omega, show y1 = num + y0 - 1 by omega]
      ring
    by_cases hdiagonal : num = 1 * den
    · have hlast : 1 * (x1 - x0) + y0 = y1 := by omega
      rw [hdiagonal, lineValue_diagonal hlen.1 (by decide) (by rw [abs_of_nonneg hj.1]; omega)
        (by rw [abs_lt]; omega), hlast, pixelOf_intCast]
      exact hy1
    by_cases hnear : y1 - y0 ≤ height
    · have hvalue := lt_lineValue (n := y1) hlen.1 hj (h.small (by omega)) (by omega)
      have := le_pixelOf (y1 ≥ y0) hvalue
      omega
    · have hvalue := lt_lineValue (n := height) hlen.1 hj h.small_den (by nlinarith)
      have := le_pixelOf (y1 ≥ y0) hvalue
      omega

end Segment

/-- A line that climbs `2 ^ 31` rows ends far from the window. -/
theorem steep_outside {num den y0 height : Int} {down : Prop} [Decidable down] (hden : 2 ≤ den ∧ den ≤ 2 ^ 27)
    (hnum : |num| = 2 ^ 31) (hrow : 0 ≤ y0 ∧ y0 < height) (hheight : height ≤ 2 ^ 27) :
    ¬ (0 ≤ pixelOf down (lineValue num den (den - 1) y0) ∧
      pixelOf down (lineValue num den (den - 1) y0) < height) := by
  have hpos : 0 < den := by omega
  have hj : 0 ≤ den - 1 ∧ den - 1 ≤ den := by omega
  have hsmall : den * (7 * |num| + |y0|) < den * 2 ^ 53 := by
    apply mul_lt_mul_of_pos_left _ hpos
    rw [hnum, abs_of_nonneg hrow.1]
    omega
  rcases (abs_eq (by norm_num)).mp hnum with rfl | rfl
  · have hvalue := lt_lineValue (n := height) hpos hj hsmall (by nlinarith)
    have := le_pixelOf down hvalue
    omega
  · have hvalue := lineValue_lt (n := -1) hpos hj hsmall (by nlinarith)
    have := pixelOf_le down hvalue
    omega

/-! ## The loop -/

theorem scan_none {x0 x1 : Int} (h : x1 < x0) (n : Nat) : scan x0 x1 n = none := by
  induction n with
  | zero => exact if_neg (by omega)
  | succ n ih => rw [scan, ih]; rfl

theorem scan_of_le {x0 x1 : Int} (h0 : -2 ^ 31 ≤ x0) (h1 : x1 < 2 ^ 31) {n : Nat} (h : x0 + n ≤ x1) :
    scan x0 x1 n = some (x0 + n) := by
  induction n with
  | zero =>
    rw [scan, if_pos (by omega)]
    simp
  | succ n ih =>
    have hnext : int32 (x0 + n + 1) = x0 + n + 1 := int32_of_mem (by omega)
    rw [scan, ih (by omega), Option.bind_some, hnext, if_pos (by omega)]
    push_cast
    rw [add_assoc]

/-- Where the loop does not reach the greatest `int`, it stops after `x1`. -/
theorem scan_some {x0 x1 x : Int} (h0 : -2 ^ 31 ≤ x0) (h1 : x1 < 2 ^ 31 - 1) {n : Nat} (h : scan x0 x1 n = some x) :
    x = x0 + n ∧ x ≤ x1 := by
  induction n generalizing x with
  | zero =>
    rw [scan] at h
    split at h
    · cases h
      simp_all
    · cases h
  | succ n ih =>
    obtain ⟨y, hy, hnext⟩ := Option.bind_eq_some_iff.mp h
    obtain ⟨rfl, hle⟩ := ih hy
    have hstep : int32 (x0 + n + 1) = x0 + n + 1 := int32_of_mem (by omega)
    rw [hstep] at hnext
    split at hnext
    · cases hnext
      push_cast
      omega
    · cases hnext

/-- `p` is the major and the minor coordinate of a pixel of the window. -/
def PairInside (width height : Int) (p : Int × Int) : Prop :=
  (0 ≤ p.1 ∧ p.1 < width) ∧ 0 ≤ p.2 ∧ p.2 < height

theorem slope_neg (dy dx : Int) : slope (-dy) (-dx) = slope dy dx := by
  unfold slope
  by_cases h : dx = 0
  · rw [if_pos h, if_pos (by omega)]
  · rw [if_neg h, if_neg (by omega), Int.cast_neg, Int.cast_neg, neg_div_neg_eq]

/-- A pixel of a line that does not overflow. -/
theorem minorAt_eq {num den x0 y0 y1 x : Int} (hden : den ≠ 0) (hx : 0 ≤ x0 ∧ x0 ≤ x ∧ x < 2 ^ 31) :
    minorAt (slope num den) x0 y0 y1 x = toInt (some (pixelOf (y1 ≥ y0) (lineValue num den (x - x0) y0))) := by
  have hdiff : int32 (x - x0) = x - x0 := int32_of_mem (by omega)
  rw [minorAt, slope, if_neg hden, hdiff]
  rfl

section

variable {width height x0 y0 x1 y1 num den : Int}

/-- What the branches of `WinDrawLine` make of the extents `dx` and `dy`, up to the sign of both. -/
structure Extents (width height x0 y0 x1 y1 num den : Int) : Prop where
  major : 0 ≤ x0 → x0 ≤ x1 → x1 < width → den = x1 - x0 + (x1 - x0).sign
  minor : height ≤ 2 ^ 27 → 0 ≤ y0 → y0 < height → |num| ≤ 2 ^ 27 ∨ 0 ≤ y1 ∧ y1 < height →
    num = y1 - y0 + (y1 - y0).sign
  flat : |num| ≤ den ∨ |num| = 2 ^ 31
  ne_zero : ¬ (num = 0 ∧ den = 0)

/-- The window has its pixels in memory. -/
structure Stored (width height : Int) : Prop where
  width_nonneg : 0 ≤ width
  height_nonneg : 0 ≤ height
  width_int : width < 2 ^ 31
  height_int : height < 2 ^ 31
  area : width * height ≤ 2 ^ 27

theorem Stored.width_le (h : Stored width height) (hheight : 0 < height) : width ≤ 2 ^ 27 := by
  nlinarith [h.area, h.width_nonneg]

theorem Stored.height_le (h : Stored width height) (hwidth : 0 < width) : height ≤ 2 ^ 27 := by
  nlinarith [h.area, h.height_nonneg]

theorem Stored.symm (h : Stored width height) : Stored height width :=
  ⟨h.height_nonneg, h.width_nonneg, h.height_int, h.width_int, by rw [mul_comm]; exact h.area⟩

/-- The points of a line that is drawn inside. -/
theorem Extents.segment (h : Extents width height x0 y0 x1 y1 num den) (hstored : Stored width height)
    (hx : 0 ≤ x0 ∧ x0 ≤ x1 ∧ x1 < width) (hy : 0 ≤ y0 ∧ y0 < height) (hflat : |num| ≤ den) :
    Segment width height x0 y0 x1 y1 num den := by
  have hmajor := h.major hx.1 hx.2.1 hx.2.2
  have hwidth := hstored.width_le (by omega)
  have hsign := sign_cases (x1 - x0)
  have hminor := h.minor (hstored.height_le (by omega)) hy.1 hy.2 (.inl (by omega))
  have hforward : x0 < x1 := by
    by_contra hle
    have hden : den = 0 := by omega
    rw [hden] at hflat
    exact h.ne_zero ⟨abs_nonpos_iff.mp hflat, hden⟩
  have hint := hstored.height_int
  exact ⟨hx.1, hforward, hx.2.2, hy, by omega, hstored.area, by omega, hminor, hflat⟩

theorem lineFrom_inside (h : Extents width height x0 y0 x1 y1 num den) (hstored : Stored width height)
    (hstart : PairInside width height (x0, y0)) (hstop : PairInside width height (x1, y1))
    {n : Nat} {p : Int × Int} (hp : lineFrom (slope num den) x0 y0 x1 y1 n = some p) :
    PairInside width height p := by
  obtain ⟨x, hscan, rfl⟩ := Option.map_eq_some_iff.mp hp
  obtain ⟨hx0, hy0⟩ := hstart
  obtain ⟨hx1, hy1⟩ := hstop
  dsimp only at hx0 hy0 hx1 hy1
  have hwidth := hstored.width_le (by omega)
  have hheight := hstored.height_le (by omega)
  obtain ⟨hx, hle⟩ := scan_some (by omega) (by omega) hscan
  have hmajor := h.major hx0.1 (by omega) hx1.2
  have hsignx := sign_cases (x1 - x0)
  have hflat : |num| ≤ den := by
    rcases h.flat with hflat | hsteep
    · exact hflat
    · -- the extent of two rows of the window is small
      have hsign := sign_cases (y1 - y0)
      have hminor := h.minor hheight hy0.1 hy0.2 (.inr hy1)
      have hsmall : |num| ≤ 2 ^ 27 := abs_le.mpr (by omega)
      omega
  have hsegment := h.segment hstored ⟨hx0.1, by omega, hx1.2⟩ hy0 hflat
  refine ⟨⟨by omega, by omega⟩, ?_⟩
  rw [minorAt_eq hsegment.den_le.1.ne' ⟨hx0.1, by omega, by omega⟩, toInt_inside (by omega)]
  exact hsegment.inside ⟨by omega, hle⟩ hy1

/-- A loop that draws only inside the window has both its ends there. -/
theorem lineFrom_ends (h : Extents width height x0 y0 x1 y1 num den) (hstored : Stored width height)
    (hx0 : -2 ^ 31 ≤ x0) (hx1 : x1 < 2 ^ 31) (hy0 : -2 ^ 31 ≤ y0 ∧ y0 < 2 ^ 31)
    (hle : x0 ≤ x1) (hall : ∀ n p, lineFrom (slope num den) x0 y0 x1 y1 n = some p → PairInside width height p) :
    PairInside width height (x0, y0) ∧ PairInside width height (x1, y1) := by
  have hat : ∀ n : Nat, x0 + n ≤ x1 → PairInside width height (x0 + n, minorAt (slope num den) x0 y0 y1 (x0 + n)) :=
    fun n hn => hall n _ (by rw [lineFrom, scan_of_le hx0 hx1 hn]; rfl)
  have hfirst := hat 0 (by omega)
  have hlast := hat (x1 - x0).toNat (by omega)
  rw [show x0 + ((x1 - x0).toNat : Int) = x1 by omega] at hlast
  rw [show x0 + ((0 : Nat) : Int) = x0 by omega] at hfirst
  obtain ⟨hcol0, hrow0⟩ := hfirst
  obtain ⟨hcol1, hrow1⟩ := hlast
  dsimp only at hcol0 hcol1 hrow0 hrow1
  have hden : den ≠ 0 := by
    rintro rfl
    rw [minorAt, slope, if_pos rfl, Option.map_none] at hrow0
    exact absurd hrow0.1 (by decide)
  have hsign := sign_cases (x1 - x0)
  have hmajor := h.major hcol0.1 hle hcol1.2
  have hheight := hstored.height_le (by omega)
  have hwidth := hstored.width_le (by omega)
  rw [minorAt_eq hden ⟨hcol0.1, by omega, by omega⟩, toInt_inside (by omega), sub_self,
    lineValue_start (.inr rfl) (abs_lt.mpr (by omega)), pixelOf_intCast] at hrow0
  rw [minorAt_eq hden ⟨hcol0.1, by omega, by omega⟩, toInt_inside (by omega)] at hrow1
  refine ⟨⟨hcol0, hrow0⟩, hcol1, ?_⟩
  rcases h.flat with hflat | hsteep
  · by_contra hout
    exact (h.segment hstored ⟨hcol0.1, hle, hcol1.2⟩ hrow0 hflat).last_outside hout hrow1
  · rw [show x1 - x0 = den - 1 by omega] at hrow1
    exact absurd hrow1 (steep_outside (by omega) hsteep hrow0 hheight)

theorem lineFrom_inside_iff (h : Extents width height x0 y0 x1 y1 num den) (hstored : Stored width height)
    (hx0 : -2 ^ 31 ≤ x0) (hx1 : x1 < 2 ^ 31) (hy0 : -2 ^ 31 ≤ y0 ∧ y0 < 2 ^ 31) :
    (∀ n p, lineFrom (slope num den) x0 y0 x1 y1 n = some p → PairInside width height p) ↔
      (PairInside width height (x0, y0) ∧ PairInside width height (x1, y1)) ∨ x1 < x0 := by
  constructor
  · intro hall
    by_cases hle : x0 ≤ x1
    · exact .inl (lineFrom_ends h hstored hx0 hx1 hy0 hle hall)
    · exact .inr (by omega)
  · rintro (⟨hstart, hstop⟩ | hempty) n p hp
    · exact lineFrom_inside h hstored hstart hstop hp
    · rw [lineFrom, scan_none hempty] at hp
      cases hp

/-- An extent between two `int`s of which one is a row of a window, where it is small or both are. -/
theorem extent_window {a b : Int} (ha : -2 ^ 31 ≤ a ∧ a < 2 ^ 31) (hb : -2 ^ 31 ≤ b ∧ b < 2 ^ 31)
    (h : (0 ≤ a ∧ a < 2 ^ 31 - 1) ∧ (0 ≤ b ∧ b < 2 ^ 31 - 1) ∨
      |extent a b| ≤ 2 ^ 27 ∧ ((0 ≤ a ∧ a < 2 ^ 27) ∨ (0 ≤ b ∧ b < 2 ^ 27))) :
    extent a b = b - a + (b - a).sign := by
  apply extent_eq
  rcases h with h | ⟨hsmall, hnear⟩
  · omega
  · have hsign := sign_cases (int32 (b - a))
    rw [abs_le] at hsmall
    unfold extent at hsmall
    unfold int32 at *
    omega

theorem abs32_cases {n m : Int} (hn : -2 ^ 31 ≤ n ∧ n < 2 ^ 31) (hm : -2 ^ 31 ≤ m ∧ m < 2 ^ 31) (h : abs32 n ≤ abs32 m) :
    |n| ≤ |m| ∨ |n| = 2 ^ 31 := by
  have := abs_cases n
  have := abs_cases m
  unfold abs32 int32 at h
  split at h <;> split at h <;> omega

/-- The difference of two ends has overflowed to the other sign, so that the loop between them does nothing. -/
def Backwards (a b : Int) : Prop := extent a b < 0 ∧ a < b ∨ 0 < extent a b ∧ b < a

theorem extent_mem (a b : Int) : -2 ^ 31 ≤ extent a b ∧ extent a b < 2 ^ 31 := int32_mem _

theorem extents_forward (hstored : Stored width height) (hx0 : -2 ^ 31 ≤ x0 ∧ x0 < 2 ^ 31)
    (hx1 : -2 ^ 31 ≤ x1 ∧ x1 < 2 ^ 31) (hy0 : -2 ^ 31 ≤ y0 ∧ y0 < 2 ^ 31) (hy1 : -2 ^ 31 ≤ y1 ∧ y1 < 2 ^ 31)
    (hne : ¬ (extent x0 x1 = 0 ∧ extent y0 y1 = 0)) (hmajor : abs32 (extent y0 y1) ≤ abs32 (extent x0 x1))
    (hdx : 0 ≤ extent x0 x1) : Extents width height x0 y0 x1 y1 (extent y0 y1) (extent x0 x1) := by
  have hwidth := hstored.width_int
  have hheight := hstored.height_int
  refine ⟨fun h0 hle h1 => ?_, fun hlow h0 h1 hnear => ?_, ?_, fun hzero => hne hzero.symm⟩
  · exact extent_window hx0 hx1 (.inl (by omega))
  · apply extent_window hy0 hy1
    rcases hnear with hsmall | hrow
    · exact .inr ⟨hsmall, .inl (by omega)⟩
    · exact .inl (by omega)
  · have hcases := abs32_cases (extent_mem y0 y1) (extent_mem x0 x1) hmajor
    rwa [abs_of_nonneg hdx] at hcases

theorem extents_backward (hstored : Stored width height) (hx0 : -2 ^ 31 ≤ x0 ∧ x0 < 2 ^ 31)
    (hx1 : -2 ^ 31 ≤ x1 ∧ x1 < 2 ^ 31) (hy0 : -2 ^ 31 ≤ y0 ∧ y0 < 2 ^ 31) (hy1 : -2 ^ 31 ≤ y1 ∧ y1 < 2 ^ 31)
    (hne : ¬ (extent x0 x1 = 0 ∧ extent y0 y1 = 0)) (hmajor : abs32 (extent y0 y1) ≤ abs32 (extent x0 x1))
    (hdx : extent x0 x1 < 0) : Extents width height x1 y1 x0 y0 (-extent y0 y1) (-extent x0 x1) := by
  have hwidth := hstored.width_int
  have hheight := hstored.height_int
  have hswap : ∀ a b : Int, -(b - a + (b - a).sign) = a - b + (a - b).sign := by
    intro a b
    rw [← neg_sub b a, Int.sign_neg]
    ring
  refine ⟨fun h0 hle h1 => ?_, fun hlow h0 h1 hnear => ?_, ?_, fun hzero => hne ?_⟩
  · rw [extent_window hx0 hx1 (.inl (by omega)), hswap]
  · rw [abs_neg] at hnear
    rw [extent_window hy0 hy1 _, hswap]
    rcases hnear with hsmall | hrow
    · exact .inr ⟨hsmall, .inr (by omega)⟩
    · exact .inl (by omega)
  · have hcases := abs32_cases (extent_mem y0 y1) (extent_mem x0 x1) hmajor
    rwa [abs_of_neg hdx, ← abs_neg] at hcases
  · exact ⟨neg_eq_zero.mp hzero.2, neg_eq_zero.mp hzero.1⟩

theorem lineAlong_inside_iff (hstored : Stored width height) (hx0 : -2 ^ 31 ≤ x0 ∧ x0 < 2 ^ 31)
    (hx1 : -2 ^ 31 ≤ x1 ∧ x1 < 2 ^ 31) (hy0 : -2 ^ 31 ≤ y0 ∧ y0 < 2 ^ 31) (hy1 : -2 ^ 31 ≤ y1 ∧ y1 < 2 ^ 31)
    (hne : ¬ (extent x0 x1 = 0 ∧ extent y0 y1 = 0)) (hmajor : abs32 (extent y0 y1) ≤ abs32 (extent x0 x1)) :
    (∀ n p, lineAlong x0 y0 x1 y1 (extent x0 x1) (extent y0 y1) n = some p → PairInside width height p) ↔
      (PairInside width height (x0, y0) ∧ PairInside width height (x1, y1)) ∨ Backwards x0 x1 := by
  unfold lineAlong Backwards
  by_cases hdx : extent x0 x1 < 0
  · have hextents := extents_backward hstored hx0 hx1 hy0 hy1 hne hmajor hdx
    rw [if_pos hdx, ← slope_neg, lineFrom_inside_iff hextents hstored hx1.1 hx0.2 hy1, and_comm]
    exact or_congr_right (by omega)
  · have hextents := extents_forward hstored hx0 hx1 hy0 hy1 hne hmajor (by omega)
    have hzero := extent_eq_zero hx0 hx1
    rw [if_neg hdx, lineFrom_inside_iff hextents hstored hx0.1 hx1.2 hy0]
    exact or_congr_right (by omega)

end

end MikanSaos
