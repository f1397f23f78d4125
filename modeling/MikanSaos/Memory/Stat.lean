import MikanSaos.Memory.FirstFit
import MikanSaos.Word64

/-!
# Stat — the allocated frames, counted word by word

`Stat` adds up the one bits of the words from the one that holds the start of the range up to, not
including, the one that holds its end.  The range itself may start and end in the middle of a word,
so that frames below it are counted and its last frames are not.
-/

open Reasoning

namespace MikanSaos

structure MemoryStat where
  allocatedFrames : Nat
  totalFrames : Nat
  deriving DecidableEq, Repr

namespace BitmapMemoryManager

/-- The loop of `Stat`: `left` words are still to be counted, the next one at index `i`. -/
def statLoop (mm : BitmapMemoryManager) (sum i : Nat) : Nat → Nat
  | 0 => sum
  | left + 1 => statLoop mm (sum + WordBitmap.popCount (mm.allocMap i)) (i + 1) left

def stat (mm : BitmapMemoryManager) : MemoryStat where
  allocatedFrames := mm.statLoop 0 (mm.rangeStart / kBitsPerMapLine)
    (mm.rangeEnd / kBitsPerMapLine - mm.rangeStart / kBitsPerMapLine)
  totalFrames := sub64 mm.rangeEnd mm.rangeStart

/-- The marked frames `f` with `lo ≤ f < hi`. -/
def markedIn (mm : BitmapMemoryManager) (lo hi : Nat) : Finset Nat :=
  (Finset.Ico lo hi).filter fun f => mm.getBit f = true

/-- The first frame of the word that holds frame `f`. -/
def lineStart (f : Nat) : Nat := kBitsPerMapLine * (f / kBitsPerMapLine)

theorem lineStart_le (f : Nat) : lineStart f ≤ f := Nat.mul_div_le f kBitsPerMapLine

theorem lineStart_mono {f g : Nat} (h : f ≤ g) : lineStart f ≤ lineStart g :=
  Nat.mul_le_mul_left _ (Nat.div_le_div_right h)

theorem markedIn_eq_members (mm : BitmapMemoryManager) (lo hi : Nat) :
    mm.markedIn lo hi = WordBitmap.members mm.allocMap lo hi := by
  simp only [markedIn, WordBitmap.members, getBit_eq_get]

theorem statLoop_eq (mm : BitmapMemoryManager) (sum i left : Nat) :
    mm.statLoop sum i left =
      sum + (mm.markedIn (kBitsPerMapLine * i) (kBitsPerMapLine * (i + left))).card := by
  induction left generalizing sum i with
  | zero => simp [statLoop, markedIn]
  | succ left ih =>
    have hword := WordBitmap.popCount_eq_card mm.allocMap i
    have hfirst : kBitsPerMapLine * i ≤ kBitsPerMapLine * (i + 1) :=
      Nat.mul_le_mul_left _ (Nat.le_succ i)
    have hrest : kBitsPerMapLine * (i + 1) ≤ kBitsPerMapLine * (i + (left + 1)) :=
      Nat.mul_le_mul_left _ (by omega)
    have hsplit := WordBitmap.card_members_add mm.allocMap hfirst hrest
    rw [statLoop, ih, hword, markedIn_eq_members, markedIn_eq_members, Nat.add_assoc,
      show i + 1 + left = i + (left + 1) by omega, ← hsplit]
    rfl

/-- `Stat` counts whole words: from the start of the range's first word to the start of the word
that holds its end. -/
theorem stat_allocatedFrames {mm : BitmapMemoryManager} (hle : mm.rangeStart ≤ mm.rangeEnd) :
    mm.stat.allocatedFrames =
      (mm.markedIn (lineStart mm.rangeStart) (lineStart mm.rangeEnd)).card := by
  have hlines : mm.rangeStart / kBitsPerMapLine ≤ mm.rangeEnd / kBitsPerMapLine :=
    Nat.div_le_div_right hle
  rw [stat, statLoop_eq, Nat.zero_add, Nat.add_sub_cancel' hlines]
  rfl

theorem stat_totalFrames {mm : BitmapMemoryManager} (hle : mm.rangeStart ≤ mm.rangeEnd)
    (hfit : mm.rangeEnd ≤ kFrameCount) :
    mm.stat.totalFrames = mm.rangeEnd - mm.rangeStart := by
  have hbound : mm.rangeEnd ≤ 2 ^ 25 := hfit
  unfold stat sub64
  simp only
  omega

/-- Taking a block raises the count by the part of the block that lies below the last word
boundary of the range. -/
theorem stat_takes {mm mm' : BitmapMemoryManager} {n s : Nat}
    (hle : mm.rangeStart ≤ mm.rangeEnd) (hfits : mm.Fits n s) (htakes : Takes mm n s mm') :
    mm'.stat.allocatedFrames =
      mm.stat.allocatedFrames + (min (s + n) (lineStart mm.rangeEnd) - s) := by
  obtain ⟨hstart, hend⟩ := htakes.range
  have hget : ∀ k, WordBitmap.get mm'.allocMap k =
      if s ≤ k ∧ k < s + n then true else WordBitmap.get mm.allocMap k := fun k => by
    rw [← getBit_eq_get, ← getBit_eq_get, htakes.bits]
  have hnew : ∀ k, s ≤ k → k < s + n → WordBitmap.get mm.allocMap k = false := fun k hlo hhi => by
    rw [← getBit_eq_get, hfits.2.2 k hlo hhi]
  have hadded := WordBitmap.card_members_of_added hget hnew (lineStart mm.rangeStart)
    (lineStart mm.rangeEnd)
  have hmax : max s (lineStart mm.rangeStart) = s :=
    max_eq_left ((lineStart_le _).trans hfits.1)
  rw [stat_allocatedFrames (by rw [hstart, hend]; exact hle), stat_allocatedFrames hle, hstart, hend,
    markedIn_eq_members, markedIn_eq_members, hadded, hmax]

/-- Freeing the block just taken brings the count back. -/
theorem stat_free_takes {mm mm' : BitmapMemoryManager} {n s : Nat}
    (hle : mm.rangeStart ≤ mm.rangeEnd) (hfits : mm.Fits n s) (htakes : Takes mm n s mm') :
    (mm'.free s n).2.stat.allocatedFrames = mm.stat.allocatedFrames := by
  obtain ⟨hstart, hend⟩ := htakes.range
  have hfstart : (mm'.free s n).2.rangeStart = mm.rangeStart :=
    (mm'.setBits_rangeStart s n false).trans hstart
  have hfend : (mm'.free s n).2.rangeEnd = mm.rangeEnd :=
    (mm'.setBits_rangeEnd s n false).trans hend
  rw [stat_allocatedFrames (by rw [hfstart, hfend]; exact hle), stat_allocatedFrames hle, hfstart,
    hfend, markedIn_eq_members, markedIn_eq_members]
  congr 1
  apply WordBitmap.members_congr
  intro k
  rw [← getBit_eq_get, ← getBit_eq_get, free, getBit_setBits, htakes.bits]
  simp only [Set.mem_Ico]
  by_cases hk : s ≤ k ∧ k < s + n
  · rw [if_pos hk, hfits.2.2 k hk.1 hk.2]
  · rw [if_neg hk, if_neg hk]

/-- What `Stat` is read for: the count is the number of marked frames of the range, at most all of
them, and follows `Allocate` and `Free`. -/
structure StatCounts (mm : BitmapMemoryManager) : Prop where
  exact : mm.stat.allocatedFrames = (mm.markedIn mm.rangeStart mm.rangeEnd).card
  le_total : mm.stat.allocatedFrames ≤ mm.stat.totalFrames
  grows : ∀ n s mm', mm.allocate n = (⟨s, .kSuccess⟩, mm') →
    mm'.stat.allocatedFrames = mm.stat.allocatedFrames + n
  shrinks : ∀ n s mm', mm.allocate n = (⟨s, .kSuccess⟩, mm') →
    (mm'.free s n).2.stat.allocatedFrames + n = mm'.stat.allocatedFrames

/-- The two partial words of the range cancel: as many marked frames lie in the first word below the
range as in the last word below the range's end, and no lowest free block reaches into the last. -/
structure PartialWordsCancel (mm : BitmapMemoryManager) : Prop where
  balanced : (mm.markedIn (lineStart mm.rangeStart) mm.rangeStart).card =
    (mm.markedIn (lineStart mm.rangeEnd) mm.rangeEnd).card
  blocks : ∀ n s, 1 ≤ n → IsLeast {q | mm.Fits n q} s → s + n ≤ lineStart mm.rangeEnd

/-- What a successful `Allocate` hands out, in the terms of `Fits` and `Takes`. -/
theorem takes_of_allocate {mm mm' : BitmapMemoryManager} {n s : Nat}
    (hfit : mm.rangeEnd ≤ kFrameCount) (h : mm.allocate n = (⟨s, .kSuccess⟩, mm')) :
    mm.Fits n s ∧ (∀ q < s, ¬ mm.FreeBlock n q) ∧ Takes mm n s mm' := by
  obtain ⟨rfl, hblock, hfirst⟩ := allocate_success h
  exact ⟨⟨hblock.start_le, hblock.end_le, fun f hlo hhi => hblock.unmarked f ⟨hlo, hhi⟩⟩, hfirst,
    takes_markAllocated (hblock.end_le.trans hfit)⟩

/-- In particular where the range starts and ends on word boundaries. -/
theorem PartialWordsCancel.of_aligned {mm : BitmapMemoryManager}
    (hstart : lineStart mm.rangeStart = mm.rangeStart) (hend : lineStart mm.rangeEnd = mm.rangeEnd) :
    mm.PartialWordsCancel := by
  refine ⟨?_, fun n s _ hleast => ?_⟩
  · rw [hstart, hend]
    simp [markedIn]
  · rw [hend]
    exact hleast.1.2.1

/-- Frame 65 lies in the last word of the range 1 .. 69, which is not counted. -/
def lastWordMarked : BitmapMemoryManager := (init.setMemoryRange 1 70).markAllocated 65 1

end BitmapMemoryManager

end MikanSaos
