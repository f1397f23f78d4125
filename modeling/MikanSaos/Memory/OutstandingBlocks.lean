import MikanSaos.Memory.BitmapMemoryManager
import MikanSaos.Reasoning.Pool
import MikanSaos.Reasoning.Reach

/-!
# Outstanding blocks — who holds which frames while the manager runs

The manager keeps no list of the blocks it handed out.  `MemState` adds that list, each block with
the manager as `Allocate` found it, and `MemStep` is one call.  The list and the set of marked frames
form a `Pool`, so that the blocks can never overlap.
-/

open Reasoning

namespace MikanSaos

/-- A block returned by `Allocate(numFrames)`, which found the manager as `found`. -/
structure Block where
  start : Nat
  numFrames : Nat
  found : BitmapMemoryManager

def Block.frames (b : Block) : Set Nat := Set.Ico b.start (b.start + b.numFrames)

structure MemState where
  mm : BitmapMemoryManager
  blocks : List Block

/-- One call: `Allocate`, `MarkAllocated` inside the bitmap, or `Free` of an outstanding block. -/
inductive MemStep (st : MemState) : MemState → Prop
  | allocate (numFrames start : Nat) (mm' : BitmapMemoryManager)
      (h : st.mm.allocate numFrames = (⟨start, .kSuccess⟩, mm')) :
      MemStep st ⟨mm', ⟨start, numFrames, st.mm⟩ :: st.blocks⟩
  | allocateFailed (numFrames start : Nat) (mm' : BitmapMemoryManager)
      (h : st.mm.allocate numFrames = (⟨start, .kNoEnoughMemory⟩, mm')) :
      MemStep st ⟨mm', st.blocks⟩
  | markAllocated (start numFrames : Nat) (h : start + numFrames ≤ kFrameCount) :
      MemStep st ⟨st.mm.markAllocated start numFrames, st.blocks⟩
  | free (before after : List Block) (b : Block) (h : st.blocks = before ++ b :: after) :
      MemStep st ⟨(st.mm.free b.start b.numFrames).2, before ++ after⟩

/-- The marked frames and the outstanding blocks, as a pool of frames. -/
def MemState.pool (st : MemState) : Pool Nat := ⟨st.mm.marked, st.blocks.map Block.frames⟩

namespace BitmapMemoryManager

theorem allocate_success {mm mm' : BitmapMemoryManager} {n s : Nat}
    (h : mm.allocate n = (⟨s, .kSuccess⟩, mm')) :
    mm' = mm.markAllocated s n ∧ mm.FreeBlock n s ∧ ∀ q < s, ¬ mm.FreeBlock n q := by
  rcases mm.allocate_cases n with ⟨s', heq, hblock, hfirst⟩ | ⟨heq, -⟩
  · rw [h, Prod.mk.injEq, WithError.mk.injEq] at heq
    obtain ⟨⟨rfl, -⟩, rfl⟩ := heq
    exact ⟨rfl, hblock, hfirst⟩
  · rw [h, Prod.mk.injEq, WithError.mk.injEq] at heq
    cases heq.1.2

theorem allocate_failed {mm mm' : BitmapMemoryManager} {n s : Nat}
    (h : mm.allocate n = (⟨s, .kNoEnoughMemory⟩, mm')) : mm' = mm ∧ s = kNullFrame := by
  rcases mm.allocate_cases n with ⟨s', heq, -⟩ | ⟨heq, -⟩
  · rw [h, Prod.mk.injEq, WithError.mk.injEq] at heq
    cases heq.1.2
  · rw [h, Prod.mk.injEq, WithError.mk.injEq] at heq
    exact ⟨heq.2, heq.1.1⟩

end BitmapMemoryManager

/-- A call to the manager is a move of the pool. -/
theorem MemStep.pool {st st' : MemState} (h : MemStep st st') : Pool.Step st.pool st'.pool := by
  cases h with
  | allocate n s mm' h =>
    obtain ⟨rfl, hblock, -⟩ := BitmapMemoryManager.allocate_success h
    have hfresh : Disjoint (Set.Ico s (s + n)) st.mm.marked := by
      rw [Set.disjoint_left]
      intro f hf hm
      rw [BitmapMemoryManager.mem_marked, hblock.unmarked f hf] at hm
      cases hm
    have hmove := Pool.Step.take (p := st.pool) _ hfresh
    simpa only [MemState.pool, BitmapMemoryManager.marked_markAllocated, List.map_cons,
      Block.frames] using hmove
  | allocateFailed n s mm' h =>
    obtain ⟨rfl, -⟩ := BitmapMemoryManager.allocate_failed h
    simpa only [MemState.pool, Set.union_empty] using Pool.Step.mark (p := st.pool) ∅
  | markAllocated s n hfit =>
    have hmove := Pool.Step.mark (p := st.pool) (Set.Ico s (s + n))
    simpa only [MemState.pool, BitmapMemoryManager.marked_markAllocated] using hmove
  | free before after b hb =>
    have hmap : st.pool.blocks = before.map Block.frames ++ b.frames :: after.map Block.frames := by
      rw [MemState.pool, hb, List.map_append, List.map_cons]
    have hmove := Pool.Step.release _ _ _ hmap
    simpa only [MemState.pool, BitmapMemoryManager.marked_free, List.map_append,
      Block.frames] using hmove

/-- What every call preserves, for a manager that started as `mm₀`. -/
structure MemState.Inv (mm₀ : BitmapMemoryManager) (st : MemState) : Prop where
  range : mm₀.SameRange st.mm
  pool : st.pool.Sound
  inside : ∀ b ∈ st.blocks, mm₀.rangeStart ≤ b.start ∧ b.start + b.numFrames ≤ mm₀.rangeEnd
  fresh : ∀ b ∈ st.blocks, ∀ f ∈ b.frames, b.found.getBit f = false
  array : ∀ line, kMapLines ≤ line → st.mm.allocMap line = mm₀.allocMap line

theorem MemState.Inv.step {mm₀ : BitmapMemoryManager} {st st' : MemState}
    (hrange : mm₀.rangeEnd ≤ kFrameCount) (hi : st.Inv mm₀) (h : MemStep st st') :
    st'.Inv mm₀ := by
  have hpool := hi.pool.step h.pool
  obtain ⟨hstart, hend⟩ := hi.range
  cases h with
  | allocate n s mm' h =>
    obtain ⟨rfl, hblock, -⟩ := BitmapMemoryManager.allocate_success h
    have hs := hblock.start_le
    have he := hblock.end_le
    refine ⟨⟨by simpa [BitmapMemoryManager.markAllocated] using hstart,
      by simpa [BitmapMemoryManager.markAllocated] using hend⟩, hpool, ?_, ?_, ?_⟩
    · rintro b hb
      rcases List.mem_cons.mp hb with rfl | hb
      · exact ⟨hstart ▸ hs, hend ▸ he⟩
      · exact hi.inside b hb
    · rintro b hb
      rcases List.mem_cons.mp hb with rfl | hb
      · exact hblock.unmarked
      · exact hi.fresh b hb
    · intro line hline
      exact (st.mm.setBits_outside s n line true (by omega) hline).trans (hi.array line hline)
  | allocateFailed n s mm' h =>
    obtain ⟨rfl, -⟩ := BitmapMemoryManager.allocate_failed h
    exact ⟨⟨hstart, hend⟩, hpool, hi.inside, hi.fresh, hi.array⟩
  | markAllocated s n hfit =>
    refine ⟨⟨by simpa [BitmapMemoryManager.markAllocated] using hstart,
      by simpa [BitmapMemoryManager.markAllocated] using hend⟩, hpool, hi.inside, hi.fresh, ?_⟩
    intro line hline
    exact (st.mm.setBits_outside s n line true hfit hline).trans (hi.array line hline)
  | free before after b hb =>
    have hmem : b ∈ st.blocks := by rw [hb]; exact List.mem_append_right _ List.mem_cons_self
    have hsub : ∀ c ∈ before ++ after, c ∈ st.blocks := by
      intro c hc
      rw [hb]
      rcases List.mem_append.mp hc with h | h
      · exact List.mem_append_left _ h
      · exact List.mem_append_right _ (List.mem_cons_of_mem b h)
    have hb' := hi.inside b hmem
    refine ⟨⟨by simpa [BitmapMemoryManager.free] using hstart,
      by simpa [BitmapMemoryManager.free] using hend⟩, hpool,
      fun c hc => hi.inside c (hsub c hc), fun c hc => hi.fresh c (hsub c hc), ?_⟩
    intro line hline
    exact (st.mm.setBits_outside b.start b.numFrames line false (by omega) hline).trans
      (hi.array line hline)

theorem MemState.Inv.of_reachable {mm₀ : BitmapMemoryManager} {st : MemState}
    (hrange : mm₀.rangeEnd ≤ kFrameCount) (h : Reachable (· = ⟨mm₀, []⟩) MemStep st) :
    st.Inv mm₀ := by
  refine h.invariant ?_ (fun _ _ hi hs => hi.step hrange hs)
  rintro _ rfl
  refine ⟨⟨rfl, rfl⟩, ⟨?_, List.Pairwise.nil⟩, ?_, ?_, fun _ _ => rfl⟩
  all_goals exact fun _ h => absurd h List.not_mem_nil

/-- **Outstanding blocks never overlap.**  Whatever the order of the calls, the blocks handed out and
not yet freed are pairwise disjoint, lie in the managed range, held no marked frame when they were
handed out, and no call ever wrote outside the array; a failed `Allocate` changes nothing. -/
theorem outstandingBlocks_exclusive {mm₀ : BitmapMemoryManager} {st : MemState}
    (hrange : mm₀.rangeEnd ≤ kFrameCount) (h : Reachable (· = ⟨mm₀, []⟩) MemStep st) :
    st.blocks.Pairwise (fun a b => Disjoint a.frames b.frames) ∧
    (∀ b ∈ st.blocks, mm₀.rangeStart ≤ b.start ∧ b.start + b.numFrames ≤ mm₀.rangeEnd ∧
      ∀ f ∈ b.frames, b.found.getBit f = false) ∧
    (∀ line, kMapLines ≤ line → st.mm.allocMap line = mm₀.allocMap line) ∧
    ∀ n, (st.mm.allocate n).1.error = .kNoEnoughMemory →
      (st.mm.allocate n).2 = st.mm := by
  have hi := MemState.Inv.of_reachable hrange h
  refine ⟨List.pairwise_map.mp hi.pool.disjoint, fun b hb => ?_, hi.array, fun n hfail => ?_⟩
  · exact ⟨(hi.inside b hb).1, (hi.inside b hb).2, hi.fresh b hb⟩
  · rcases st.mm.allocate_cases n with ⟨s, heq, -⟩ | ⟨heq, -⟩
    · rw [heq] at hfail
      cases hfail
    · rw [heq]

/-- A bitmap without marks whose range lies across the end of the first word. -/
def straddlingRange : BitmapMemoryManager := BitmapMemoryManager.init.setMemoryRange 60 70

theorem outstandingBlocks_exclusive_straddling :
    ∃ st : MemState, st.blocks.map (fun b => (b.start, b.numFrames)) = [(63, 4), (60, 3)] ∧
      st.blocks.Pairwise (fun a b => Disjoint a.frames b.frames) := by
  have hfirst : straddlingRange.allocate 3 =
      (⟨60, .kSuccess⟩, straddlingRange.markAllocated 60 3) := by rfl
  have hsecond : (straddlingRange.markAllocated 60 3).allocate 4 =
      (⟨63, .kSuccess⟩, (straddlingRange.markAllocated 60 3).markAllocated 63 4) := by rfl
  have hstart : Reachable (· = ⟨straddlingRange, []⟩) MemStep ⟨straddlingRange, []⟩ := .start rfl
  have hrun := (hstart.next (.allocate 3 60 _ hfirst)).next (.allocate 4 63 _ hsecond)
  exact ⟨_, rfl, (outstandingBlocks_exclusive (by decide) hrun).1⟩

end MikanSaos
