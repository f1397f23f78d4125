import Mathlib.Data.Int.Log
import Mathlib.Data.Rat.Floor
import Mathlib.Tactic.Linarith
import Mathlib.Tactic.Ring

/-!
# Rounding — arithmetic with a fixed number of significant bits

A binary floating-point operation returns the exact result rounded to `p` significant bits, ties to even.
The exponent is not bounded here: the laws are for values far from overflow and from the subnormal numbers.
-/

namespace Reasoning

/-- The integer next to `q`, and the even one of two. -/
def nearestEven (q : ℚ) : ℤ :=
  if q - ⌊q⌋ < 1 / 2 then ⌊q⌋
  else if 1 / 2 < q - ⌊q⌋ then ⌊q⌋ + 1
  else if ⌊q⌋ % 2 = 0 then ⌊q⌋ else ⌊q⌋ + 1

/-- `q` with `p` significant bits. -/
def roundTo (p : ℕ) (q : ℚ) : ℚ :=
  if q = 0 then 0
  else
    let ulp : ℚ := 2 ^ (Int.log 2 |q| + 1 - p)
    nearestEven (q / ulp) * ulp

variable {p : ℕ} {q : ℚ}

theorem abs_nearestEven_sub_le (q : ℚ) : |nearestEven q - q| ≤ 1 / 2 := by
  have hle := Int.floor_le q
  have hlt := Int.lt_floor_add_one q
  unfold nearestEven
  rw [abs_le]
  split
  · constructor <;> linarith
  · split
    · push_cast
      constructor <;> linarith
    · split
      · constructor <;> linarith
      · push_cast
        constructor <;> linarith

@[simp] theorem nearestEven_intCast (n : ℤ) : nearestEven n = n := by
  have hhalf : ((n : ℚ) - ⌊(n : ℚ)⌋) < 1 / 2 := by
    rw [Int.floor_intCast, sub_self]
    norm_num
  rw [nearestEven, if_pos hhalf, Int.floor_intCast]

@[simp] theorem roundTo_zero : roundTo p 0 = 0 := if_pos rfl

/-- The error is at most half a unit in the last place. -/
theorem abs_roundTo_sub_le (p : ℕ) (q : ℚ) : |roundTo p q - q| ≤ |q| / 2 ^ p := by
  by_cases hq : q = 0
  · simp [hq]
  · have hpos : 0 < |q| := abs_pos.mpr hq
    set e := Int.log 2 |q| + 1 - (p : ℤ) with he
    have hulp : (0 : ℚ) < 2 ^ e := zpow_pos (by norm_num) e
    -- half an ulp is the power of two below `|q|`, divided by `2 ^ p`
    have hlog : (2 : ℚ) ^ Int.log 2 |q| ≤ |q| := Int.zpow_log_le_self (by norm_num) hpos
    have hhalf : (1 / 2 : ℚ) * 2 ^ e = 2 ^ Int.log 2 |q| / 2 ^ p := by
      rw [he, zpow_sub₀ two_ne_zero, zpow_add_one₀ two_ne_zero, zpow_natCast]
      ring
    have hsplit : roundTo p q - q = (nearestEven (q / 2 ^ e) - q / 2 ^ e) * 2 ^ e := by
      rw [roundTo, if_neg hq, sub_mul, div_mul_cancel₀ q hulp.ne']
    calc |roundTo p q - q| = |nearestEven (q / 2 ^ e) - q / 2 ^ e| * 2 ^ e := by
          rw [hsplit, abs_mul, abs_of_pos hulp]
      _ ≤ 1 / 2 * 2 ^ e := mul_le_mul_of_nonneg_right (abs_nearestEven_sub_le _) hulp.le
      _ = 2 ^ Int.log 2 |q| / 2 ^ p := hhalf
      _ ≤ |q| / 2 ^ p := div_le_div_of_nonneg_right hlog (by positivity)

/-- An integer of at most `p` bits is not rounded. -/
theorem roundTo_intCast {n : ℤ} (h : |n| < 2 ^ p) : roundTo p n = n := by
  by_cases hn : n = 0
  · simp [hn]
  · have hq : (n : ℚ) ≠ 0 := Int.cast_ne_zero.mpr hn
    have habs : |(n : ℚ)| < (2 : ℕ) ^ (p : ℤ) := by
      rw [zpow_natCast]
      exact_mod_cast h
    have hlog : Int.log 2 |(n : ℚ)| < p :=
      (Int.lt_zpow_iff_log_lt (by norm_num) (abs_pos.mpr hq)).mp habs
    obtain ⟨k, hk⟩ := Int.eq_ofNat_of_zero_le (show 0 ≤ (p : ℤ) - (Int.log 2 |(n : ℚ)| + 1) by omega)
    have he : Int.log 2 |(n : ℚ)| + 1 - (p : ℤ) = -(k : ℤ) := by omega
    have hscaled : (n : ℚ) / 2 ^ (-(k : ℤ)) = ((n * 2 ^ k : ℤ) : ℚ) := by
      rw [zpow_neg, zpow_natCast, div_inv_eq_mul]
      push_cast
      rfl
    rw [roundTo, if_neg hq, he]
    dsimp only
    rw [hscaled, nearestEven_intCast, ← hscaled]
    exact div_mul_cancel₀ _ (zpow_ne_zero _ two_ne_zero)

/-- The error of `a * j + b` where `a`, the product and the sum are each rounded. -/
theorem abs_roundTo_mul_add_sub_le (p : ℕ) (a j b : ℚ) :
    |roundTo p (roundTo p (roundTo p a * j) + b) - (a * j + b)| ≤ (7 * |a * j| + |b|) / 2 ^ p := by
  set m := roundTo p a
  set t := roundTo p (m * j)
  have hu : (0 : ℚ) < 2 ^ p := by positivity
  have hunit : |a * j| / 2 ^ p ≤ |a * j| :=
    div_le_self (abs_nonneg _) (one_le_pow₀ (by norm_num))
  have hm : |m * j - a * j| ≤ |a * j| / 2 ^ p := by
    rw [← sub_mul, abs_mul, abs_mul, mul_div_right_comm]
    exact mul_le_mul_of_nonneg_right (abs_roundTo_sub_le p a) (abs_nonneg j)
  have hmj : |m * j| ≤ 2 * |a * j| := by
    have := abs_sub_abs_le_abs_sub (m * j) (a * j)
    linarith
  have ht : |t - m * j| ≤ 2 * |a * j| / 2 ^ p :=
    (abs_roundTo_sub_le p (m * j)).trans (div_le_div_of_nonneg_right hmj hu.le)
  have htj : |t - a * j| ≤ 3 * |a * j| / 2 ^ p := by
    have hsum := abs_add_le (t - m * j) (m * j - a * j)
    rw [sub_add_sub_cancel] at hsum
    have hthree : 3 * |a * j| / 2 ^ p = 2 * |a * j| / 2 ^ p + |a * j| / 2 ^ p := by ring
    linarith
  have htb : |t + b| ≤ 4 * |a * j| + |b| := by
    have h1 := abs_add_le t b
    have h2 := abs_sub_abs_le_abs_sub t (a * j)
    have h3 : 3 * |a * j| / 2 ^ p ≤ 3 * |a * j| := by
      rw [mul_div_assoc]
      linarith
    linarith
  have hv : |roundTo p (t + b) - (t + b)| ≤ (4 * |a * j| + |b|) / 2 ^ p :=
    (abs_roundTo_sub_le p (t + b)).trans (div_le_div_of_nonneg_right htb hu.le)
  calc |roundTo p (t + b) - (a * j + b)| = |(roundTo p (t + b) - (t + b)) + (t - a * j)| := by
        congr 1
        ring
    _ ≤ |roundTo p (t + b) - (t + b)| + |t - a * j| := abs_add_le _ _
    _ ≤ (4 * |a * j| + |b|) / 2 ^ p + 3 * |a * j| / 2 ^ p := add_le_add hv htj
    _ = (7 * |a * j| + |b|) / 2 ^ p := by ring

end Reasoning
