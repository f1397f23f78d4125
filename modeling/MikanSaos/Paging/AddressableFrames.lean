import MikanSaos.Paging.IdentityTable

/-!
# AddressableFrames — what `Allocate` returns, against what the kernel can address

The allocator counts frames up to `kMaxPhysicalMemoryBytes`, the identity table up to
`kPageDirectoryCount` GiB.  A run is any list of calls after `InitializeMemoryManager`.
-/

open Reasoning

namespace MikanSaos

inductive ManagerCall where
  | allocate (numFrames : Nat)
  | free (startFrame numFrames : Nat)
  deriving DecidableEq

/-- `Free` clears bits of the bitmap only. -/
def ManagerCall.InBitmap : ManagerCall → Prop
  | allocate _ => True
  | free startFrame numFrames => startFrame + numFrames ≤ kFrameCount

namespace BitmapMemoryManager

/-- What the `Allocate` calls of a run return: the first frame, and the number asked for. -/
def returned (mm : BitmapMemoryManager) : List ManagerCall → List (Nat × Nat)
  | [] => []
  | .allocate numFrames :: calls =>
    let (frame, mm) := mm.allocate numFrames
    if frame.error = .kSuccess then (frame.value, numFrames) :: mm.returned calls
    else mm.returned calls
  | .free startFrame numFrames :: calls => (mm.free startFrame numFrames).2.returned calls

/-- The frames of a returned block; the first one is returned even when none were asked for. -/
def blockFrames (block : Nat × Nat) : Set Nat := {f | f = block.1 ∨ f ∈ Set.Ico block.1 (block.1 + block.2)}

variable {mm mm' : BitmapMemoryManager} {n s f : Nat} {calls : List ManagerCall} {block : Nat × Nat}

theorem returned_allocate (h : mm.allocate n = (⟨s, .kSuccess⟩, mm')) :
    mm.returned (.allocate n :: calls) = (s, n) :: mm'.returned calls := by
  rw [returned, h]
  exact if_pos rfl

theorem allocate_range (mm : BitmapMemoryManager) (n : Nat) : mm.SameRange (mm.allocate n).2 := by
  rcases mm.allocate_cases n with ⟨s, heq, -⟩ | ⟨heq, -⟩
  · rw [heq]
    exact ⟨mm.setBits_rangeStart s n true, mm.setBits_rangeEnd s n true⟩
  · rw [heq]
    exact ⟨rfl, rfl⟩

/-- No call returns a frame from outside the range, whatever was freed before. -/
theorem returned_lt (hblock : block ∈ mm.returned calls) (hf : f ∈ blockFrames block) : f < mm.rangeEnd := by
  induction calls generalizing mm with
  | nil => cases hblock
  | cons call calls ih =>
    cases call with
    | allocate n =>
      -- a call that fails returns nothing, and the range never changes
      have hrange := (mm.allocate_range n).2
      rcases mm.allocate_cases n with ⟨s, heq, hfree, -⟩ | ⟨heq, -⟩
      · rw [returned_allocate heq, List.mem_cons] at hblock
        rw [heq] at hrange
        rcases hblock with rfl | hblock
        · have hstart := hfree.start_lt
          have hend := hfree.end_le
          rcases hf with rfl | hf
          · exact hstart
          · exact lt_of_lt_of_le hf.2 hend
        · exact hrange ▸ ih hblock
      · rw [returned, heq] at hblock
        exact ih hblock
    | free s n =>
      have hrange : (mm.free s n).2.rangeEnd = mm.rangeEnd := mm.setBits_rangeEnd s n false
      exact hrange ▸ ih hblock

/-- A frame of the range that is not marked is returned by one of some calls for single frames: each call
before returns a lower frame. -/
theorem exists_returned (hstart : mm.rangeStart ≤ f) (hend : f < mm.rangeEnd) (hfree : mm.getBit f = false) :
    ∃ calls : List ManagerCall, (∀ c ∈ calls, c = .allocate 1) ∧ (f, 1) ∈ mm.returned calls := by
  -- by the number of frames from `q` to `f`, where all below `q` are marked
  suffices hrun : ∀ left q (mm : BitmapMemoryManager), f - q = left → q ≤ f → mm.rangeStart ≤ f →
      f < mm.rangeEnd → mm.getBit f = false →
      (∀ g, mm.rangeStart ≤ g → g < q → mm.getBit g = true) →
      ∃ calls : List ManagerCall, (∀ c ∈ calls, c = .allocate 1) ∧ (f, 1) ∈ mm.returned calls from
    hrun _ 0 mm rfl (Nat.zero_le f) hstart hend hfree fun g _ hg => absurd hg (Nat.not_lt_zero g)
  intro left
  induction left using Nat.strong_induction_on with
  | h left ih =>
    intro q mm hleft hq hstart hend hfree hmarked
    have hfits : ∀ g, mm.rangeStart ≤ g → g ≤ f → mm.getBit g = false → mm.Fits 1 g := by
      intro g hlo hhi hbit
      refine ⟨hlo, by omega, fun g' hg' hlt => ?_⟩
      have hsame : g' = g := by omega
      rw [hsame]
      exact hbit
    rcases mm.allocate_isLeast_or (n := 1) le_rfl with ⟨s, hleast, heq⟩ | ⟨hnone, -⟩
    · have hle : s ≤ f := hleast.2 (hfits f hstart le_rfl hfree)
      by_cases hsf : s = f
      · refine ⟨[.allocate 1], by simp, ?_⟩
        rw [returned_allocate heq, hsf]
        exact List.mem_cons_self
      · -- the rest of the run starts after `s`
        have hqs : q ≤ s := by
          by_contra hlt
          have hbit := hleast.1.2.2 s le_rfl (by omega)
          rw [hmarked s hleast.1.1 (by omega)] at hbit
          cases hbit
        have hbits : ∀ g, (mm.markAllocated s 1).getBit g = if s ≤ g ∧ g < s + 1 then true else mm.getBit g := by
          intro g
          rw [markAllocated, getBit_setBits]
          simp only [Set.mem_Ico]
        have hafter : ∀ g, mm.rangeStart ≤ g → g < s + 1 → (mm.markAllocated s 1).getBit g = true := by
          intro g hlo hlt
          rw [hbits]
          split
          · rfl
          · by_contra hbit
            have hg := hleast.2 (hfits g hlo (by omega) (by simpa using hbit))
            omega
        have hstart' : (mm.markAllocated s 1).rangeStart = mm.rangeStart := mm.setBits_rangeStart s 1 true
        have hend' : (mm.markAllocated s 1).rangeEnd = mm.rangeEnd := mm.setBits_rangeEnd s 1 true
        obtain ⟨calls, hcalls, hmem⟩ := ih (f - (s + 1)) (by omega) (s + 1) (mm.markAllocated s 1) rfl
          (by omega) (hstart' ▸ hstart) (hend' ▸ hend) (by rw [hbits, if_neg (by omega), hfree])
          (hstart' ▸ hafter)
        refine ⟨.allocate 1 :: calls, by simpa using hcalls, ?_⟩
        rw [returned_allocate heq]
        exact List.mem_cons_of_mem _ hmem
    · exact absurd ⟨f, hfits f hstart le_rfl hfree⟩ hnone

end BitmapMemoryManager

/-! ## After `InitializeMemoryManager` -/

theorem WellFormedMap.uefiMap {descs : List MemoryDescriptor} (h : WellFormedMap descs) : UefiMap descs := by
  refine ⟨h.aligned, ?_, fun d hd => ?_⟩
  · refine h.sorted.imp_of_mem fun {a b} ha _ hle => .inl ?_
    rw [h.physicalEnd_eq ha] at hle
    exact hle
  · exact lt_of_le_of_lt (h.below d hd) (by decide)

section

variable {mem : Nat → UInt8} {map : MemoryMap} {heap : Nat × Nat} {mm : BitmapMemoryManager}

theorem markMemoryMap_eq (hsize : 0 < map.descriptorSize) :
    markMemoryMap mem map = some (loopManager .init (map.descriptors mem)) := by
  have hloop : descriptorLoop mem map map.mapSize map.buffer (.init, 0) =
      some ((map.descriptors mem).foldl visitDescriptor (.init, 0)) :=
    descriptorLoop_eq_foldl hsize _ _ _ _ (by omega) (by rw [Nat.add_sub_cancel_left])
  rw [markMemoryMap, hloop, foldl_visitDescriptor]
  rfl

theorem initializeMemoryManager_of_allocate {s : Nat} (hsize : 0 < map.descriptorSize)
    (h : (loopManager .init (map.descriptors mem)).allocate kHeapFrames = (⟨s, .kSuccess⟩, mm)) :
    initializeMemoryManager mem map =
      some ((s * kBytesPerFrame, s * kBytesPerFrame + kHeapFrames * kBytesPerFrame), mm) := by
  rw [initializeMemoryManager, markMemoryMap_eq hsize]
  dsimp only
  rw [initializeHeap, h]
  rfl

/-- The manager that is left hands out frames from 1 up to the last available end. -/
theorem initializeMemoryManager_range (hsize : 0 < map.descriptorSize) (hmap : UefiMap (map.descriptors mem))
    (h : initializeMemoryManager mem map = some (heap, mm)) :
    mm.rangeStart = 1 ∧ mm.rangeEnd = lastAvailableEnd (map.descriptors mem) / kBytesPerFrame := by
  have hrange := (loopManager .init (map.descriptors mem)).allocate_range kHeapFrames
  rcases (loopManager .init (map.descriptors mem)).allocate_cases kHeapFrames with ⟨s, heq, -⟩ | ⟨heq, -⟩
  · rw [initializeMemoryManager_of_allocate hsize heq] at h
    cases h
    rw [heq] at hrange
    rw [← hmap.foldl_nextEnd]
    exact hrange
  · -- without a heap the kernel stops
    rw [initializeMemoryManager, markMemoryMap_eq hsize] at h
    dsimp only at h
    rw [initializeHeap, heq] at h
    cases h

theorem getBit_loopManager {descs : List MemoryDescriptor} {f : Nat} :
    (loopManager .init descs).getBit f = true ↔ ∃ c ∈ descriptorCalls 0 descs, f ∈ c.frames := by
  have hclear : BitmapMemoryManager.init.getBit f = false := by
    simp [BitmapMemoryManager.getBit, BitmapMemoryManager.init]
  have hfold := getBit_foldl_apply (descriptorCalls 0 descs) .init f
  simp only [hclear, Bool.false_eq_true, false_or] at hfold
  exact hfold

/-- Frames below 64 GiB are exactly those that the identity table maps. -/
theorem identityMapped_setup_iff {t : StaticTables} {words : Nat → Nat} (hcleared : t.Cleared words) {f : Nat}
    (hf : f < kFrameCount) : IdentityMapped (t.setupIdentityPageTable words) t.pml4Table f ↔
      f < kPageDirectoryCount * kPageSize1G / kBytesPerFrame := by
  have hcount : kFrameCount = 2 ^ 25 := by decide
  rw [identityMapped_iff (StaticTables.setupIdentityPageTable_identity hcleared) (by omega)]
  unfold kPageDirectoryCount kPageSize1G kPageSize2M kPageSize4K kBytesPerFrame
  omega

/-- **When every frame that `Allocate` returns can be addressed.**  After `InitializeMemoryManager` has
accepted a map, whatever is allocated and freed: exactly when the available memory of the map ends at or below
the 64 GiB of the identity table. -/
theorem returned_identityMapped_iff (hsize : 0 < map.descriptorSize) (hwf : WellFormedMap (map.descriptors mem))
    (haccept : initializeMemoryManager mem map = some (heap, mm)) {t : StaticTables} {words : Nat → Nat}
    (hcleared : t.Cleared words) :
    (∀ calls : List ManagerCall, (∀ c ∈ calls, c.InBitmap) → ∀ block ∈ mm.returned calls,
      ∀ f ∈ BitmapMemoryManager.blockFrames block,
        IdentityMapped (t.setupIdentityPageTable words) t.pml4Table f) ↔
      lastAvailableEnd (map.descriptors mem) ≤ kPageDirectoryCount * kPageSize1G := by
  obtain ⟨hstart, hend⟩ := initializeMemoryManager_range hsize hwf.uefiMap haccept
  have haligned := hwf.uefiMap.lastAvailableEnd_bounds.1
  have hbelow : lastAvailableEnd (map.descriptors mem) ≤ kMaxPhysicalMemoryBytes := by
    unfold lastAvailableEnd
    cases hlast : ((map.descriptors mem).filter fun d => isAvailable d.type).getLast? with
    | none => exact Nat.zero_le _
    | some d => exact hwf.below d (List.mem_of_mem_filter (List.mem_of_getLast? hlast))
  have hmax : kMaxPhysicalMemoryBytes = kFrameCount * kBytesPerFrame := by decide
  have hcount : kFrameCount = 2 ^ 25 := by decide
  unfold kBytesPerFrame at hend hmax
  constructor
  · intro hmapped
    by_contra hbeyond
    -- free the first frame behind the table, and allocate until it is returned
    have hlt : 2 ^ 24 < lastAvailableEnd (map.descriptors mem) / 4096 := by
      unfold kPageDirectoryCount kPageSize1G kPageSize2M kPageSize4K at hbeyond
      omega
    have hfreed : (mm.free (2 ^ 24) 1).2.getBit (2 ^ 24) = false := by
      rw [BitmapMemoryManager.free, BitmapMemoryManager.getBit_setBits]
      exact if_pos ⟨le_rfl, by omega⟩
    have hstart' : (mm.free (2 ^ 24) 1).2.rangeStart = mm.rangeStart := mm.setBits_rangeStart _ 1 false
    have hend' : (mm.free (2 ^ 24) 1).2.rangeEnd = mm.rangeEnd := mm.setBits_rangeEnd _ 1 false
    obtain ⟨calls, hcalls, hmem⟩ := BitmapMemoryManager.exists_returned (f := 2 ^ 24) (by omega) (by omega) hfreed
    have hframe := hmapped (.free (2 ^ 24) 1 :: calls) ?_ (2 ^ 24, 1) hmem (2 ^ 24) (.inl rfl)
    · rw [identityMapped_setup_iff hcleared (by omega)] at hframe
      exact absurd hframe (by decide)
    · intro c hc
      rcases List.mem_cons.mp hc with rfl | hc
      · show 2 ^ 24 + 1 ≤ kFrameCount
        omega
      · rw [hcalls c hc]
        trivial
  · -- frames from outside the range are never returned
    intro hle calls _ block hblock f hf
    have hlt := BitmapMemoryManager.returned_lt hblock hf
    rw [identityMapped_setup_iff hcleared (by omega)]
    unfold kPageDirectoryCount kPageSize1G kPageSize2M kPageSize4K at hle ⊢
    unfold kBytesPerFrame
    omega

/-- The tables as a kernel at 1 MiB may have them. -/
def lowTables : StaticTables where
  pml4Table := 0x200000
  pdpTable := 0x201000
  pageDirectory := 0x202000
  pml4Table_aligned := by decide
  pdpTable_aligned := by decide
  pageDirectory_aligned := by decide
  pml4Table_ne := by decide
  pml4Table_apart := by decide
  pdpTable_apart := by decide
  pdpTable_lt := by decide
  pageDirectory_le := by decide

/-- 128 MiB and a page from address 0 on, and one page at 64 GiB. -/
def farMapBytes : Nat → UInt8 :=
  writeLE (writeLE (writeLE (writeLE (writeLE (fun _ => 0) 0 4 7) 24 8 0x8001) 48 4 7) 56 8 (2 ^ 36)) 72 8 1

theorem farMap_descriptors :
    holeMap.descriptors farMapBytes = [⟨7, 0, 0x8001⟩, ⟨7, 2 ^ 36, 1⟩] := by decide

theorem farMap_wellFormed : WellFormedMap (holeMap.descriptors farMapBytes) := by
  rw [farMap_descriptors]
  exact ⟨by decide, by decide, by decide⟩

theorem farMap_getBit {f : Nat} : (loopManager .init (holeMap.descriptors farMapBytes)).getBit f = true ↔
    0x8001 ≤ f ∧ f < 2 ^ 24 := by
  have hcalls : descriptorCalls 0 [⟨7, 0, 0x8001⟩, ⟨7, 2 ^ 36, 1⟩] =
      [MarkCall.between (0x8001 * 4096) (2 ^ 36)] := by decide
  have hframes : (MarkCall.between (0x8001 * 4096) (2 ^ 36)).frames = Set.Ico 0x8001 (2 ^ 24) := rfl
  rw [getBit_loopManager, farMap_descriptors, hcalls]
  simp only [List.mem_singleton, exists_eq_left, hframes, Set.mem_Ico]

/-- The heap takes the low memory. -/
theorem farMap_accepted : initializeMemoryManager farMapBytes holeMap =
    some ((4096, 0x8001000),
      (loopManager .init (holeMap.descriptors farMapBytes)).markAllocated 1 kHeapFrames) := by
  apply initializeMemoryManager_of_allocate (s := 1) (by decide)
  apply BitmapMemoryManager.allocate_of_isLeast (by decide)
  refine ⟨⟨le_rfl, ?_, fun f hlo hhi => ?_⟩, fun q hq => hq.1⟩
  · have hend : (holeMap.descriptors farMapBytes).foldl nextEnd 0 / kBytesPerFrame = 2 ^ 24 + 1 := by
      rw [farMap_descriptors]
      decide
    show 1 + kHeapFrames ≤ (holeMap.descriptors farMapBytes).foldl nextEnd 0 / kBytesPerFrame
    rw [hend]
    decide
  · rw [← Bool.not_eq_true, farMap_getBit]
    unfold kHeapFrames at hhi
    omega

theorem returned_identityMapped_far : ∃ heap mm, initializeMemoryManager farMapBytes holeMap = some (heap, mm) ∧
    ((∀ calls : List ManagerCall, (∀ c ∈ calls, c.InBitmap) → ∀ block ∈ mm.returned calls,
      ∀ f ∈ BitmapMemoryManager.blockFrames block,
        IdentityMapped (lowTables.setupIdentityPageTable fun _ => 0) lowTables.pml4Table f) ↔
      lastAvailableEnd (holeMap.descriptors farMapBytes) ≤ kPageDirectoryCount * kPageSize1G) :=
  ⟨_, _, farMap_accepted, returned_identityMapped_iff (by decide) farMap_wellFormed farMap_accepted
    fun _ _ => ⟨rfl, rfl⟩⟩

/-- The first `Allocate(1)` returns the frame at 64 GiB, where there is no mapping. -/
theorem farMap_returns_unmapped : WellFormedMap (holeMap.descriptors farMapBytes) ∧
    ∃ heap mm, initializeMemoryManager farMapBytes holeMap = some (heap, mm) ∧
      mm.returned [.allocate 1] = [(2 ^ 24, 1)] ∧
      ¬ IdentityMapped (lowTables.setupIdentityPageTable fun _ => 0) lowTables.pml4Table (2 ^ 24) := by
  refine ⟨farMap_wellFormed, _, _, farMap_accepted, ?_, ?_⟩
  · have hbit : ∀ f, ((loopManager .init (holeMap.descriptors farMapBytes)).markAllocated 1 kHeapFrames).getBit f =
        false ↔ ¬ (1 ≤ f ∧ f < 2 ^ 24) := by
      intro f
      rw [getBit_markAllocated, Bool.or_eq_false_iff, ← Bool.not_eq_true (BitmapMemoryManager.getBit _ f),
        farMap_getBit, decide_eq_false_iff_not, Set.mem_Ico]
      unfold kHeapFrames
      omega
    -- the frame at 64 GiB is the only one left
    have hrange := initializeMemoryManager_range (by decide) farMap_wellFormed.uefiMap farMap_accepted
    have hend : lastAvailableEnd (holeMap.descriptors farMapBytes) / kBytesPerFrame = 2 ^ 24 + 1 := by
      rw [farMap_descriptors]
      decide
    rw [hend] at hrange
    have hleast : IsLeast {q | ((loopManager .init (holeMap.descriptors farMapBytes)).markAllocated 1
        kHeapFrames).Fits 1 q} (2 ^ 24) := by
      constructor
      · refine ⟨by rw [hrange.1]; decide, by rw [hrange.2], fun f hlo hhi => (hbit f).mpr (by omega)⟩
      · intro q hq
        have hq' := (hbit q).mp (hq.2.2 q le_rfl (by omega))
        have hone := hq.1
        rw [hrange.1] at hone
        omega
    rw [BitmapMemoryManager.returned_allocate (BitmapMemoryManager.allocate_of_isLeast le_rfl hleast)]
    rfl
  · rw [identityMapped_setup_iff (fun _ _ => ⟨rfl, rfl⟩) (by decide)]
    decide

end

end MikanSaos
