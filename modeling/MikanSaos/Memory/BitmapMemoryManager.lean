import Mathlib.Algebra.Order.Ring.Nat
import MikanSaos.Error
import MikanSaos.Reasoning.WordBitmap

/-!
# BitmapMemoryManager — the page-frame allocator

One bit per 4 KiB frame, packed into 64-bit words, and the range of frame numbers the manager hands
out from.  `allocMap` is the memory from the array's base on, word by word; the array itself is its
first `kMapLines` words.
-/

open Reasoning

namespace MikanSaos

def kBytesPerFrame : Nat := 4096
def kMaxPhysicalMemoryBytes : Nat := 128 * 1024 * 1024 * 1024
def kFrameCount : Nat := kMaxPhysicalMemoryBytes / kBytesPerFrame
def kBitsPerMapLine : Nat := 64
def kMapLines : Nat := kFrameCount / kBitsPerMapLine

/-- `std::numeric_limits<size_t>::max()`. -/
def kNullFrame : Nat := 2 ^ 64 - 1

structure BitmapMemoryManager where
  allocMap : Nat → BitVec 64
  rangeStart : Nat
  rangeEnd : Nat

namespace BitmapMemoryManager

/-- The constructor: no frame is marked and the range is the whole bitmap. -/
def init : BitmapMemoryManager := ⟨fun _ => 0#64, 0, kFrameCount⟩

def getBit (mm : BitmapMemoryManager) (frame : Nat) : Bool :=
  let lineIndex := frame / kBitsPerMapLine
  let bitIndex := frame % kBitsPerMapLine
  (mm.allocMap lineIndex &&& (1#64 <<< bitIndex)) != 0#64

def setBit (mm : BitmapMemoryManager) (frame : Nat) (allocated : Bool) : BitmapMemoryManager :=
  let lineIndex := frame / kBitsPerMapLine
  let bitIndex := frame % kBitsPerMapLine
  let line :=
    if allocated then mm.allocMap lineIndex ||| (1#64 <<< bitIndex)
    else mm.allocMap lineIndex &&& ~~~(1#64 <<< bitIndex)
  { mm with allocMap := Function.update mm.allocMap lineIndex line }

/-- `for (i = 0; i < num_frames; i++) SetBit(FrameID{start_frame.ID() + i}, allocated)`, the loop
that `MarkAllocated` and `Free` share. -/
def setBits (mm : BitmapMemoryManager) (startFrame : Nat) (allocated : Bool) :
    Nat → BitmapMemoryManager
  | 0 => mm
  | n + 1 => (setBits mm startFrame allocated n).setBit (startFrame + n) allocated

def markAllocated (mm : BitmapMemoryManager) (startFrame numFrames : Nat) : BitmapMemoryManager :=
  mm.setBits startFrame true numFrames

def free (mm : BitmapMemoryManager) (startFrame numFrames : Nat) : Error × BitmapMemoryManager :=
  (.kSuccess, mm.setBits startFrame false numFrames)

def setMemoryRange (mm : BitmapMemoryManager) (startFrame endFrame : Nat) : BitmapMemoryManager :=
  { mm with rangeStart := startFrame, rangeEnd := endFrame }

/-- How the inner loop of `Allocate` ends. -/
inductive FrameScan where
  | outOfRange
  | allocated (i : Nat)
  | free
  deriving DecidableEq

/-- The inner loop of `Allocate`: `left` frames of the candidate block are still to be tested, the
next one at offset `i`. -/
def scanFrames (mm : BitmapMemoryManager) (startFrameId i : Nat) : Nat → FrameScan
  | 0 => .free
  | left + 1 =>
    if mm.rangeEnd ≤ startFrameId + i then .outOfRange
    else if mm.getBit (startFrameId + i) then .allocated i
    else scanFrames mm startFrameId (i + 1) left

/-- The outer loop of `Allocate`.  Each round moves the candidate on by at least one frame, so the
size of the range bounds the rounds. -/
def allocateLoop (mm : BitmapMemoryManager) (numFrames : Nat) : Nat → Nat → Option Nat
  | 0, _ => none
  | rounds + 1, startFrameId =>
    if startFrameId < mm.rangeEnd then
      match mm.scanFrames startFrameId 0 numFrames with
      | .outOfRange => none
      | .free => some startFrameId
      | .allocated i => allocateLoop mm numFrames rounds (startFrameId + (i + 1))
    else none

def allocate (mm : BitmapMemoryManager) (numFrames : Nat) : WithError Nat × BitmapMemoryManager :=
  match mm.allocateLoop numFrames (mm.rangeEnd - mm.rangeStart) mm.rangeStart with
  | some startFrameId => (⟨startFrameId, .kSuccess⟩, mm.markAllocated startFrameId numFrames)
  | none => (⟨kNullFrame, .kNoEnoughMemory⟩, mm)

/-! ## The bitmap as a set of frames -/

/-- The frames whose bit is set. -/
def marked (mm : BitmapMemoryManager) : Set Nat := {f | mm.getBit f = true}

@[simp] theorem mem_marked {mm : BitmapMemoryManager} {f : Nat} :
    f ∈ mm.marked ↔ mm.getBit f = true := Iff.rfl

/-- `mm` and `mm'` hand out frames from the same range. -/
def SameRange (mm mm' : BitmapMemoryManager) : Prop :=
  mm'.rangeStart = mm.rangeStart ∧ mm'.rangeEnd = mm.rangeEnd

theorem getBit_eq_get (mm : BitmapMemoryManager) (f : Nat) :
    mm.getBit f = WordBitmap.get mm.allocMap f := by
  have hbit : f % 64 < 64 := Nat.mod_lt f (by decide)
  unfold getBit WordBitmap.get kBitsPerMapLine
  rw [Bool.eq_iff_iff, bne_iff_ne, ne_eq]
  constructor
  · intro hne
    by_contra hoff
    apply hne
    apply BitVec.eq_of_getLsbD_eq
    intro i hi
    rw [BitVec.getLsbD_and, WordBitmap.getLsbD_oneBit hi, BitVec.getLsbD_zero]
    by_cases h : i = f % 64
    · rw [h]; simpa using hoff
    · simp [h]
  · intro hon hzero
    have h := congrArg (fun v : BitVec 64 => v.getLsbD (f % 64)) hzero
    simp only [BitVec.getLsbD_and, WordBitmap.getLsbD_oneBit hbit, hon, decide_true,
      Bool.and_self, BitVec.getLsbD_zero, Bool.true_eq_false] at h

theorem setBits_eq_fill (mm : BitmapMemoryManager) (start n : Nat) (b : Bool) :
    mm.setBits start b n = { mm with allocMap := WordBitmap.fill mm.allocMap start b n } := by
  induction n with
  | zero => rfl
  | succ n ih => rw [setBits, ih]; rfl

theorem getBit_setBits (mm : BitmapMemoryManager) (start n f : Nat) (b : Bool) :
    (mm.setBits start b n).getBit f =
      if f ∈ Set.Ico start (start + n) then b else mm.getBit f := by
  rw [setBits_eq_fill, getBit_eq_get, getBit_eq_get]
  exact WordBitmap.get_fill (by decide) mm.allocMap start n f b

@[simp] theorem setBits_rangeStart (mm : BitmapMemoryManager) (start n : Nat) (b : Bool) :
    (mm.setBits start b n).rangeStart = mm.rangeStart := by rw [setBits_eq_fill]

@[simp] theorem setBits_rangeEnd (mm : BitmapMemoryManager) (start n : Nat) (b : Bool) :
    (mm.setBits start b n).rangeEnd = mm.rangeEnd := by rw [setBits_eq_fill]

theorem marked_markAllocated (mm : BitmapMemoryManager) (start n : Nat) :
    (mm.markAllocated start n).marked = mm.marked ∪ Set.Ico start (start + n) := by
  ext f
  rw [mem_marked, markAllocated, getBit_setBits, Set.mem_union, mem_marked]
  by_cases h : f ∈ Set.Ico start (start + n) <;> simp only [h, if_true, if_false, or_true, or_false]

theorem marked_free (mm : BitmapMemoryManager) (start n : Nat) :
    (mm.free start n).2.marked = mm.marked \ Set.Ico start (start + n) := by
  ext f
  rw [mem_marked, free, getBit_setBits, Set.mem_sdiff, mem_marked]
  by_cases h : f ∈ Set.Ico start (start + n) <;> simp [h]

/-- Marking or freeing frames inside the bitmap rewrites no word behind the array. -/
theorem setBits_outside (mm : BitmapMemoryManager) (start n line : Nat) (b : Bool)
    (hfit : start + n ≤ kFrameCount) (hline : kMapLines ≤ line) :
    (mm.setBits start b n).allocMap line = mm.allocMap line := by
  rw [setBits_eq_fill]
  exact WordBitmap.fill_of_le mm.allocMap start n kMapLines line b hfit hline

/-! ## The search loops of `Allocate` -/

theorem scanFrames_free (mm : BitmapMemoryManager) (s i left : Nat)
    (h : mm.scanFrames s i left = .free) :
    ∀ f, s + i ≤ f → f < s + i + left → f < mm.rangeEnd ∧ mm.getBit f = false := by
  induction left generalizing i with
  | zero => intro f hlo hhi; omega
  | succ left ih =>
    rw [scanFrames] at h
    split at h
    · cases h
    · rename_i hin
      split at h
      · cases h
      · rename_i hbit
        intro f hlo hhi
        by_cases hf : f = s + i
        · subst hf
          exact ⟨by omega, by simpa using hbit⟩
        · exact ih (i + 1) h f (by omega) (by omega)

theorem scanFrames_allocated (mm : BitmapMemoryManager) (s i left k : Nat)
    (h : mm.scanFrames s i left = .allocated k) :
    i ≤ k ∧ k < i + left ∧ mm.getBit (s + k) = true := by
  induction left generalizing i with
  | zero => cases h
  | succ left ih =>
    rw [scanFrames] at h
    split at h
    · cases h
    · split at h
      · rename_i hbit
        cases h
        exact ⟨le_rfl, by omega, hbit⟩
      · obtain ⟨hle, hlt, hbit⟩ := ih (i + 1) h
        exact ⟨by omega, by omega, hbit⟩

theorem scanFrames_outOfRange (mm : BitmapMemoryManager) (s i left : Nat)
    (h : mm.scanFrames s i left = .outOfRange) : mm.rangeEnd < s + i + left := by
  induction left generalizing i with
  | zero => cases h
  | succ left ih =>
    rw [scanFrames] at h
    split at h
    · omega
    · split at h
      · cases h
      · have hrec := ih (i + 1) h
        omega

/-- `s` starts a block of `n` unmarked frames inside the range. -/
structure FreeBlock (mm : BitmapMemoryManager) (n s : Nat) : Prop where
  start_le : mm.rangeStart ≤ s
  start_lt : s < mm.rangeEnd
  end_le : s + n ≤ mm.rangeEnd
  unmarked : ∀ f ∈ Set.Ico s (s + n), mm.getBit f = false

theorem scanFrames_freeBlock {mm : BitmapMemoryManager} {s n : Nat} (hs : mm.rangeStart ≤ s)
    (hlt : s < mm.rangeEnd) (h : mm.scanFrames s 0 n = .free) : mm.FreeBlock n s := by
  have hfree := scanFrames_free mm s 0 n h
  refine ⟨hs, hlt, ?_, fun f hf => (hfree f hf.1 hf.2).2⟩
  by_contra hend
  have := (hfree (s + n - 1) (by omega) (by omega)).1
  omega

theorem allocateLoop_some {mm : BitmapMemoryManager} {n rounds s r : Nat}
    (hs : mm.rangeStart ≤ s) (h : mm.allocateLoop n rounds s = some r) :
    s ≤ r ∧ mm.FreeBlock n r ∧ ∀ q, s ≤ q → q < r → ¬ mm.FreeBlock n q := by
  induction rounds generalizing s with
  | zero => cases h
  | succ rounds ih =>
    rw [allocateLoop] at h
    split at h
    · rename_i hlt
      split at h
      · cases h
      · rename_i hscan
        cases h
        exact ⟨le_rfl, scanFrames_freeBlock hs hlt hscan, fun q h1 h2 => by omega⟩
      · rename_i i hscan
        obtain ⟨-, hi, hbit⟩ := scanFrames_allocated mm s 0 n i hscan
        obtain ⟨hle, hblock, hfirst⟩ := ih (by omega) h
        refine ⟨by omega, hblock, fun q hq hqr hfree => ?_⟩
        by_cases hskip : s + (i + 1) ≤ q
        · exact hfirst q hskip hqr hfree
        · -- a skipped candidate would contain the marked frame `s + i`
          have := hfree.unmarked (s + i) ⟨by omega, by omega⟩
          rw [hbit] at this
          cases this
    · cases h

theorem allocateLoop_none {mm : BitmapMemoryManager} {n rounds s : Nat}
    (hrounds : mm.rangeEnd - s ≤ rounds) (h : mm.allocateLoop n rounds s = none) :
    ∀ q, s ≤ q → ¬ mm.FreeBlock n q := by
  induction rounds generalizing s with
  | zero =>
    intro q hq hfree
    have := hfree.start_lt
    omega
  | succ rounds ih =>
    rw [allocateLoop] at h
    intro q hq hfree
    split at h
    · rename_i hlt
      split at h
      · rename_i hscan
        have := scanFrames_outOfRange mm s 0 n hscan
        have := hfree.end_le
        omega
      · cases h
      · rename_i i hscan
        obtain ⟨-, hi, hbit⟩ := scanFrames_allocated mm s 0 n i hscan
        by_cases hskip : s + (i + 1) ≤ q
        · exact ih (by omega) h q hskip hfree
        · have := hfree.unmarked (s + i) ⟨by omega, by omega⟩
          rw [hbit] at this
          cases this
    · have := hfree.start_lt
      omega

/-- `Allocate` either hands out the lowest free block and marks it, or reports `kNoEnoughMemory`,
when there is no free block, and leaves the manager as it was. -/
theorem allocate_cases (mm : BitmapMemoryManager) (n : Nat) :
    (∃ s, mm.allocate n = (⟨s, .kSuccess⟩, mm.markAllocated s n) ∧ mm.FreeBlock n s ∧
      ∀ q < s, ¬ mm.FreeBlock n q) ∨
    (mm.allocate n = (⟨kNullFrame, .kNoEnoughMemory⟩, mm) ∧ ∀ q, ¬ mm.FreeBlock n q) := by
  unfold allocate
  cases hloop : mm.allocateLoop n (mm.rangeEnd - mm.rangeStart) mm.rangeStart with
  | some s =>
    obtain ⟨-, hblock, hfirst⟩ := allocateLoop_some le_rfl hloop
    exact .inl ⟨s, rfl, hblock, fun q hq hfree => hfirst q hfree.start_le hq hfree⟩
  | none =>
    exact .inr ⟨rfl, fun q hfree => allocateLoop_none le_rfl hloop q hfree.start_le hfree⟩

end BitmapMemoryManager

end MikanSaos
