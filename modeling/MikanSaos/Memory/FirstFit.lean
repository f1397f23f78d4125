import Mathlib.Order.Bounds.Basic
import MikanSaos.Memory.OutstandingBlocks

/-!
# FirstFit — which block `Allocate` finds

The search skips to behind the first marked frame of a candidate and gives up once a candidate
reaches the end of the range.  `Fits` says what a usable block is, with no regard to the search, and
`AllocateRun` is the outer loop without a bound on its rounds.
-/

open Reasoning

namespace MikanSaos.BitmapMemoryManager

variable {mm : BitmapMemoryManager} {n s q r f : Nat}

/-- Frames `s .. s + n - 1` lie in the range and are all unmarked. -/
def Fits (mm : BitmapMemoryManager) (n s : Nat) : Prop :=
  mm.rangeStart ≤ s ∧ s + n ≤ mm.rangeEnd ∧ ∀ f, s ≤ f → f < s + n → mm.getBit f = false

theorem fits_iff_freeBlock (hn : 1 ≤ n) : mm.Fits n s ↔ mm.FreeBlock n s := by
  constructor
  · rintro ⟨hstart, hend, hbits⟩
    exact ⟨hstart, by omega, hend, fun f hf => hbits f hf.1 hf.2⟩
  · rintro ⟨hstart, -, hend, hbits⟩
    exact ⟨hstart, hend, fun f hlo hhi => hbits f ⟨hlo, hhi⟩⟩

/-- `AllocateRun mm n s res`: from candidate `s` on, the `while` loop of `Allocate(n)` comes to an end
and leaves with `res`. -/
inductive AllocateRun (mm : BitmapMemoryManager) (n : Nat) : Nat → Option Nat → Prop
  | rangeDone (s : Nat) (h : ¬ s < mm.rangeEnd) : AllocateRun mm n s none
  | outOfRange (s : Nat) (h : s < mm.rangeEnd) (hscan : mm.scanFrames s 0 n = .outOfRange) :
      AllocateRun mm n s none
  | found (s : Nat) (h : s < mm.rangeEnd) (hscan : mm.scanFrames s 0 n = .free) :
      AllocateRun mm n s (some s)
  | skip (s i : Nat) (res : Option Nat) (h : s < mm.rangeEnd)
      (hscan : mm.scanFrames s 0 n = .allocated i) (hrest : AllocateRun mm n (s + (i + 1)) res) :
      AllocateRun mm n s res

/-- The loop ends, and with what the bounded loop computes: each skip takes the candidate at least
one frame on, so that the size of the rest of the range bounds the rounds. -/
theorem allocateLoop_run (rounds : Nat) (hrounds : mm.rangeEnd - s ≤ rounds) :
    AllocateRun mm n s (mm.allocateLoop n rounds s) := by
  induction rounds generalizing s with
  | zero =>
    -- the range is used up
    exact .rangeDone s (by omega)
  | succ rounds ih =>
    rw [allocateLoop]
    by_cases hlt : s < mm.rangeEnd
    · rw [if_pos hlt]
      cases hscan : mm.scanFrames s 0 n with
      | outOfRange => exact .outOfRange s hlt hscan
      | free => exact .found s hlt hscan
      | allocated i => exact .skip s i _ hlt hscan (ih (by omega))
    · rw [if_neg hlt]
      exact .rangeDone s hlt

/-- `Allocate` takes a block `s` and rewrites the bits of its frames alone. -/
structure Takes (mm : BitmapMemoryManager) (n s : Nat) (mm' : BitmapMemoryManager) : Prop where
  range : mm.SameRange mm'
  bits : ∀ f, mm'.getBit f = if s ≤ f ∧ f < s + n then true else mm.getBit f
  /-- No word behind the array is written. -/
  outside : ∀ line, kMapLines ≤ line → mm'.allocMap line = mm.allocMap line

theorem takes_markAllocated (hfit : s + n ≤ kFrameCount) :
    Takes mm n s (mm.markAllocated s n) := by
  refine ⟨⟨mm.setBits_rangeStart s n true, mm.setBits_rangeEnd s n true⟩, fun f => ?_,
    fun line hline => mm.setBits_outside s n line true hfit hline⟩
  rw [markAllocated, getBit_setBits]
  simp only [Set.mem_Ico]

/-- `Allocate` hands out the lowest block that fits, and fails when none does. -/
theorem allocate_isLeast_or (mm : BitmapMemoryManager) (hn : 1 ≤ n) :
    (∃ s, IsLeast {q | mm.Fits n q} s ∧
      mm.allocate n = (⟨s, .kSuccess⟩, mm.markAllocated s n)) ∨
    (¬ ∃ s, mm.Fits n s) ∧ mm.allocate n = (⟨kNullFrame, .kNoEnoughMemory⟩, mm) := by
  rcases mm.allocate_cases n with ⟨s, heq, hblock, hfirst⟩ | ⟨heq, hnone⟩
  · refine .inl ⟨s, ⟨(fits_iff_freeBlock hn).mpr hblock, fun p hp => ?_⟩, heq⟩
    -- no block below `s` was free
    by_contra hlt
    exact hfirst p (by omega) ((fits_iff_freeBlock hn).mp hp)
  · exact .inr ⟨fun ⟨s, hs⟩ => hnone s ((fits_iff_freeBlock hn).mp hs), heq⟩

theorem allocate_of_isLeast (hn : 1 ≤ n) (hleast : IsLeast {q | mm.Fits n q} s) :
    mm.allocate n = (⟨s, .kSuccess⟩, mm.markAllocated s n) := by
  rcases mm.allocate_isLeast_or hn with ⟨s', hleast', heq⟩ | ⟨hnone, -⟩
  · rw [heq, hleast.unique hleast']
  · exact absurd ⟨s, hleast.1⟩ hnone

/-- **`Allocate` is exact first fit.**  The search ends; when some block of `n` unmarked frames lies
in the range the lowest one is returned and exactly its frames are marked, and otherwise
`kNoEnoughMemory` is reported and nothing changes. -/
theorem allocate_firstFit (mm : BitmapMemoryManager) (n : Nat) (hn : 1 ≤ n)
    (hrange : mm.rangeEnd ≤ kFrameCount) :
    (∃ res, AllocateRun mm n mm.rangeStart res ∧
      (mm.allocate n).1.value = res.getD kNullFrame) ∧
    ((∃ s, mm.Fits n s) →
      ∃ s, IsLeast {q | mm.Fits n q} s ∧ (mm.allocate n).1 = ⟨s, .kSuccess⟩ ∧
        Takes mm n s (mm.allocate n).2) ∧
    ((¬ ∃ s, mm.Fits n s) → mm.allocate n = (⟨kNullFrame, .kNoEnoughMemory⟩, mm)) := by
  refine ⟨⟨_, allocateLoop_run _ le_rfl, ?_⟩, ?_, ?_⟩
  · unfold allocate
    cases mm.allocateLoop n (mm.rangeEnd - mm.rangeStart) mm.rangeStart <;> rfl
  · intro hsome
    rcases mm.allocate_isLeast_or hn with ⟨s, hleast, heq⟩ | ⟨hnone, -⟩
    · refine ⟨s, hleast, by rw [heq], ?_⟩
      rw [heq]
      exact takes_markAllocated (hleast.1.2.1.trans hrange)
    · exact absurd hsome hnone
  · intro hno
    rcases mm.allocate_isLeast_or hn with ⟨s, hleast, -⟩ | ⟨-, heq⟩
    · exact absurd ⟨s, hleast.1⟩ hno
    · exact heq

/-- Frames 60 to 69 with frame 61 marked: the first three unmarked frames in a row start at 62. -/
def markedRange : BitmapMemoryManager := straddlingRange.markAllocated 61 1

theorem allocate_firstFit_marked :
    ∃ s, IsLeast {q | markedRange.Fits 3 q} s ∧ (markedRange.allocate 3).1 = ⟨s, .kSuccess⟩ ∧
      Takes markedRange 3 s (markedRange.allocate 3).2 :=
  (allocate_firstFit markedRange 3 (by decide) (by decide)).2.1
    ⟨62, by decide, by decide, fun f hlo hhi => by
      have hf : f = 62 ∨ f = 63 ∨ f = 64 := by omega
      rcases hf with rfl | rfl | rfl <;> rfl⟩

end MikanSaos.BitmapMemoryManager
