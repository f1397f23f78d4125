import MikanSaos.Word64
import Mathlib.Order.Monotone.Defs

/-!
# PmTimer — the busy wait on the ACPI timer

The counter has 24 or 32 bits and wraps around.  `WaitMilliseconds` computes the value at which it is to stop;
where this value is below the first one, it first waits for the counter to wrap.
-/

namespace MikanSaos

/-- The fields of the FADT that the wait uses. -/
structure FADT where
  pmTmrBlk : Nat
  flags : Nat

def kPMTimerFreq : Nat := 3579545

/-- `while (test(IoIn32(...)));`, with `reads k` the value of read number `k`: the number of reads there have
been when it ends. -/
def waitWhile (reads : Nat → Nat) (test : Nat → Bool) : Nat → Nat → Option Nat
  | 0, _ => none
  | fuel + 1, k => if test (reads k) then waitWhile reads test fuel (k + 1) else some (k + 1)

namespace FADT

def pmTimer32 (fadt : FADT) : Bool := fadt.flags.testBit 8

/-- The width of the counter. -/
def pmTimerBits (fadt : FADT) : Nat := if fadt.pmTimer32 then 32 else 24

/-- The value of the counter at which the wait ends. -/
def endValue (fadt : FADT) (start msec : Nat) : Nat :=
  let endValue := add64 start (mul64 kPMTimerFreq msec / 1000) % 2 ^ 32
  if fadt.pmTimer32 then endValue else endValue &&& 0x00ffffff

/-- `ioIn32 port k` is what read number `k` of the port returns. -/
def waitMilliseconds (fadt : FADT) (ioIn32 : Nat → Nat → Nat) (msec fuel : Nat) : Option Nat :=
  let reads := ioIn32 fadt.pmTmrBlk
  let start := reads 0
  let endValue := fadt.endValue start msec
  -- overflow
  let wrapped := if endValue < start then waitWhile reads (start ≤ ·) fuel 1 else some 1
  wrapped.bind fun k => waitWhile reads (· < endValue) fuel k

end FADT

/-! ## The end of a loop -/

variable {reads : Nat → Nat} {test : Nat → Bool} {fuel k n : Nat}

/-- The last value that has been read ends the loop. -/
theorem waitWhile_eq_some (h : waitWhile reads test fuel k = some n) :
    ∃ last, n = last + 1 ∧ k ≤ last ∧ test (reads last) = false := by
  induction fuel generalizing k with
  | zero => cases h
  | succ fuel ih =>
    rw [waitWhile] at h
    split at h
    · obtain ⟨last, hn, hk, htest⟩ := ih h
      exact ⟨last, hn, by omega, htest⟩
    · rename_i htest
      exact ⟨k, (Option.some.inj h).symm, le_rfl, by simpa using htest⟩

/-! ## The ticks that have passed -/

namespace FADT

variable {fadt : FADT} {ticks : Nat → Nat} {msec port : Nat}

/-- The ticks of the wait. -/
def tickCount (msec : Nat) : Nat := kPMTimerFreq * msec / 1000

/-- No bits are lost: the sum is the value of the counter after the ticks of the wait. -/
theorem endValue_eq {start : Nat} (hstart : start < 2 ^ fadt.pmTimerBits)
    (hticks : tickCount msec < 2 ^ fadt.pmTimerBits) :
    fadt.endValue start msec = (start + tickCount msec) % 2 ^ fadt.pmTimerBits := by
  have hwide : 2 ^ fadt.pmTimerBits ≤ 2 ^ 32 := by
    unfold pmTimerBits
    split <;> decide
  have hproduct : mul64 kPMTimerFreq msec = kPMTimerFreq * msec := by
    apply Nat.mod_eq_of_lt
    unfold tickCount at hticks
    omega
  have hsum : add64 start (kPMTimerFreq * msec / 1000) = start + tickCount msec := by
    apply Nat.mod_eq_of_lt
    unfold tickCount at hticks
    omega
  unfold endValue
  rw [hproduct, hsum]
  unfold pmTimerBits
  by_cases h32 : fadt.pmTimer32 = true
  · simp only [h32, if_true]
  · -- the mask of a counter of 24 bits
    simp only [h32, if_false, Bool.false_eq_true]
    have hmask : 0x00ffffff = 2 ^ 24 - 1 := rfl
    rw [hmask, Nat.and_two_pow_sub_one_eq_mod]
    exact Nat.mod_mod_of_dvd _ (Nat.pow_dvd_pow 2 (by decide))

/-- The counter after fewer ticks than it has values. -/
theorem counter_eq {first elapsed modulus : Nat} (h : elapsed < modulus) : (first + elapsed) % modulus =
    if modulus ≤ first % modulus + elapsed then first % modulus + elapsed - modulus
    else first % modulus + elapsed := by
  rw [Nat.add_mod_eq_ite, Nat.mod_eq_of_lt h]

/-- **The wait is never short.**  For both widths, every value to start from, and whatever the reads see of a
count that does not go back: when `WaitMilliseconds` returns, its ticks have passed since its first read. -/
theorem waitMilliseconds_not_short (hmono : Monotone ticks)
    (hticks : tickCount msec < 2 ^ fadt.pmTimerBits)
    (hrun : fadt.waitMilliseconds (fun _ k => ticks k % 2 ^ fadt.pmTimerBits) msec fuel = some n) :
    0 < n ∧ ticks 0 + tickCount msec ≤ ticks (n - 1) := by
  have hpos : 0 < 2 ^ fadt.pmTimerBits := Nat.two_pow_pos _
  have hstart : ticks 0 % 2 ^ fadt.pmTimerBits < 2 ^ fadt.pmTimerBits := Nat.mod_lt _ hpos
  unfold waitMilliseconds at hrun
  dsimp only at hrun
  rw [endValue_eq hstart hticks] at hrun
  generalize 2 ^ fadt.pmTimerBits = modulus at *
  obtain ⟨k, hwrapped, hrun⟩ := Option.bind_eq_some_iff.mp hrun
  obtain ⟨last, rfl, hk, hend⟩ := waitWhile_eq_some hrun
  refine ⟨Nat.succ_pos last, ?_⟩
  rw [Nat.add_sub_cancel]
  by_contra hshort
  have hcounter : ∀ i, ticks i < ticks 0 + tickCount msec → ticks i % modulus =
      if modulus ≤ ticks 0 % modulus + (ticks i - ticks 0) then
        ticks 0 % modulus + (ticks i - ticks 0) - modulus
      else ticks 0 % modulus + (ticks i - ticks 0) := by
    intro i hi
    have hfirst := hmono (Nat.zero_le i)
    have hsum : ticks 0 + (ticks i - ticks 0) = ticks i := by omega
    rw [← counter_eq (by omega), hsum]
  have hpassed := hmono (Nat.zero_le last)
  have hlast := hcounter last (by omega)
  have hvalue : (ticks 0 % modulus + tickCount msec) % modulus =
      if modulus ≤ ticks 0 % modulus + tickCount msec then ticks 0 % modulus + tickCount msec - modulus
      else ticks 0 % modulus + tickCount msec := by
    rw [Nat.mod_add_mod]
    exact counter_eq hticks
  rw [decide_eq_false_iff_not, Nat.not_lt, hvalue] at hend
  rw [hvalue] at hwrapped
  by_cases hover : modulus ≤ ticks 0 % modulus + tickCount msec
  · -- the first loop has seen the counter after it has wrapped, and it does not wrap again
    rw [if_pos hover, if_pos (by omega)] at hwrapped
    obtain ⟨wrap, rfl, -, hwrap⟩ := waitWhile_eq_some hwrapped
    have hle := hmono (show wrap ≤ last by omega)
    have hfirst := hmono (Nat.zero_le wrap)
    rw [decide_eq_false_iff_not, Nat.not_le, hcounter wrap (by omega)] at hwrap
    rw [if_pos hover, hlast] at hend
    split at hwrap
    · split at hend <;> omega
    · omega
  · -- the counter does not wrap before the end
    rw [if_neg hover, hlast, if_neg (by omega)] at hend
    omega

/-- One millisecond with the counter of 24 bits close to its end: it has wrapped when it is read again. -/
theorem waitMilliseconds_wraps :
    FADT.waitMilliseconds ⟨0x408, 0⟩ (fun _ k => (0xfffffe + 2000 * k) % 2 ^ 24) 1 10 = some 3 ∧
    0xfffffe + 3579 ≤ 0xfffffe + 2000 * 2 := by
  have hrun : FADT.waitMilliseconds ⟨0x408, 0⟩ (fun _ k => (0xfffffe + 2000 * k) % 2 ^ 24) 1 10 = some 3 := by
    decide
  have hmono : Monotone fun k => 0xfffffe + 2000 * k := by
    intro i j hij
    dsimp only
    omega
  have hticks : tickCount 1 < 2 ^ pmTimerBits ⟨0x408, 0⟩ := by decide
  exact ⟨hrun, (waitMilliseconds_not_short hmono hticks hrun).2⟩

end FADT

end MikanSaos
