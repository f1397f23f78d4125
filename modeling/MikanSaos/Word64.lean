import Mathlib.Algebra.Order.Ring.Nat

/-! Sums, differences and products of 64-bit machine words, and the values of an `int`. -/

namespace MikanSaos

def add64 (a b : Nat) : Nat := (a + b) % 2 ^ 64
def sub64 (a b : Nat) : Nat := (a + (2 ^ 64 - b)) % 2 ^ 64
def mul64 (a b : Nat) : Nat := a * b % 2 ^ 64

/-- A result of `int` arithmetic. -/
def int32 (n : Int) : Int := (n + 2 ^ 31) % 2 ^ 32 - 2 ^ 31

/-- The conversion of an `int` to a 64-bit word without a sign. -/
def word64 (n : Int) : Nat := (n % 2 ^ 64).toNat

end MikanSaos
