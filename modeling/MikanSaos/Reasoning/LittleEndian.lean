import Mathlib.Algebra.Order.Ring.Nat
import Mathlib.Tactic.Ring

/-!
# Little-endian numbers in a byte memory

A memory is a function from addresses to bytes.  `readLE` is the number in `n` consecutive bytes,
lowest byte first, and `writeLE` stores one there.
-/

namespace Reasoning

/-- The number in the `n` bytes from `addr` on. -/
def readLE (mem : Nat → UInt8) (addr : Nat) : Nat → Nat
  | 0 => 0
  | n + 1 => (mem addr).toNat + 256 * readLE mem (addr + 1) n

/-- Store `v`, truncated to `n` bytes, from `addr` on. -/
def writeLE (mem : Nat → UInt8) (addr n v : Nat) : Nat → UInt8 := fun a =>
  if addr ≤ a ∧ a < addr + n then UInt8.ofNat (v / 256 ^ (a - addr)) else mem a

theorem readLE_lt (mem : Nat → UInt8) (addr n : Nat) : readLE mem addr n < 256 ^ n := by
  induction n generalizing addr with
  | zero => simp [readLE]
  | succ n ih =>
    have hbyte := (mem addr).toNat_lt
    have hrest := ih (addr + 1)
    rw [readLE, pow_succ]
    omega

theorem readLE_congr {mem mem' : Nat → UInt8} {addr n : Nat}
    (h : ∀ a, addr ≤ a → a < addr + n → mem a = mem' a) :
    readLE mem addr n = readLE mem' addr n := by
  induction n generalizing addr with
  | zero => rfl
  | succ n ih =>
    rw [readLE, readLE, h addr le_rfl (by omega),
      ih fun a hlo hhi => h a (by omega) (by omega)]

theorem writeLE_of_lt {mem : Nat → UInt8} {addr n v a : Nat} (h : a < addr) :
    writeLE mem addr n v a = mem a := if_neg (by omega)

theorem writeLE_of_le {mem : Nat → UInt8} {addr n v a : Nat} (h : addr + n ≤ a) :
    writeLE mem addr n v a = mem a := if_neg (by omega)

/-- What was stored is read back, up to the truncation. -/
theorem readLE_writeLE (mem : Nat → UInt8) (addr n v : Nat) :
    readLE (writeLE mem addr n v) addr n = v % 256 ^ n := by
  suffices h : ∀ k m, k + m = n →
      readLE (writeLE mem addr n v) (addr + k) m = v / 256 ^ k % 256 ^ m by
    simpa using h 0 n (by omega)
  intro k m
  induction m generalizing k with
  | zero => intro _; rw [readLE, pow_zero, Nat.mod_one]
  | succ m ih =>
    intro hk
    have hbyte : writeLE mem addr n v (addr + k) = UInt8.ofNat (v / 256 ^ k) := by
      rw [writeLE, if_pos ⟨by omega, by omega⟩, Nat.add_sub_cancel_left]
    rw [readLE, hbyte, Nat.add_assoc, ih (k + 1) (by omega), UInt8.toNat_ofNat',
      show (2 : Nat) ^ 8 = 256 from rfl, pow_succ 256 k, ← Nat.div_div_eq_div_mul,
      pow_succ' 256 m, Nat.mod_mul]

/-- A number outside the stored bytes reads as before. -/
theorem readLE_writeLE_of_disjoint {mem : Nat → UInt8} {addr n v a m : Nat}
    (h : a + m ≤ addr ∨ addr + n ≤ a) :
    readLE (writeLE mem addr n v) a m = readLE mem a m := by
  apply readLE_congr
  intro b hlo hhi
  rcases h with h | h
  · exact writeLE_of_lt (by omega)
  · exact writeLE_of_le (by omega)

end Reasoning
