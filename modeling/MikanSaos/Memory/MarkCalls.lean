import MikanSaos.Memory.FirstFit
import MikanSaos.Memory.MemoryMap

/-!
# MarkCalls — the frames `InitializeMemoryManager` marks

Every `MarkAllocated` of the descriptor loop starts at the end of the last available descriptor so
far, and its frame count is the difference of two addresses that come from different descriptors.
`MarkCall` keeps the arguments of a call beside these two addresses, so that the count can be compared
with the exact difference and the last frame with the size of the bitmap.
-/

open Reasoning

namespace MikanSaos

/-- One call of `MarkAllocated`: its arguments, and the addresses `lo` and `hi` between which it is
to mark. -/
structure MarkCall where
  startFrame : Nat
  numFrames : Nat
  lo : Nat
  hi : Nat
  deriving DecidableEq

namespace MarkCall

/-- `MarkAllocated(FrameID{lo / kBytesPerFrame}, (hi - lo) / kBytesPerFrame)`, computed in 64 bits. -/
def between (lo hi : Nat) : MarkCall :=
  ⟨lo / kBytesPerFrame, sub64 hi lo / kBytesPerFrame, lo, hi⟩

/-- The count is the exact, non-negative difference and every bit set lies in the bitmap. -/
structure Inside (c : MarkCall) : Prop where
  le : c.lo ≤ c.hi
  count : c.numFrames = (c.hi - c.lo) / kBytesPerFrame
  fits : c.startFrame + c.numFrames ≤ kFrameCount

def apply (mm : BitmapMemoryManager) (c : MarkCall) : BitmapMemoryManager :=
  mm.markAllocated c.startFrame c.numFrames

/-- The frames a call marks. -/
def frames (c : MarkCall) : Set Nat := Set.Ico c.startFrame (c.startFrame + c.numFrames)

section

variable {lo hi : Nat} (hlo : lo % 4096 = 0) (hhi : hi % 4096 = 0)
include hlo hhi

/-- A call between page-aligned addresses is inside exactly when it does not run backwards and ends
at or below 128 GiB. -/
theorem inside_between_iff (hlow : lo < 2 ^ 64) (hhigh : hi < 2 ^ 64) :
    (between lo hi).Inside ↔ lo ≤ hi ∧ hi ≤ kMaxPhysicalMemoryBytes := by
  have hmax : kMaxPhysicalMemoryBytes = 4096 * kFrameCount := by decide
  constructor
  · rintro ⟨hle, -, hfits⟩
    unfold between sub64 kBytesPerFrame at hle hfits
    exact ⟨hle, by simp only at hfits hle; omega⟩
  · rintro ⟨hle, hend⟩
    refine ⟨hle, ?_, ?_⟩ <;> unfold between sub64 kBytesPerFrame
    · simp only
      omega
    · simp only
      omega

theorem mem_frames_between (hle : lo ≤ hi) (hhigh : hi < 2 ^ 64) (f : Nat) :
    f ∈ (between lo hi).frames ↔ lo ≤ f * kBytesPerFrame ∧ f * kBytesPerFrame < hi := by
  unfold between frames sub64 kBytesPerFrame
  rw [Set.mem_Ico]
  simp only
  omega

end

end MarkCall

/-- The end of a descriptor's region, without the wrap-around of `physical_end`. -/
def MemoryDescriptor.exactEnd (desc : MemoryDescriptor) : Nat :=
  desc.physicalStart + desc.numberOfPages * kUEFIPageSize

/-- The call made in one round of the descriptor loop. -/
def visitCall (availableEnd : Nat) (desc : MemoryDescriptor) : Option MarkCall :=
  if isAvailable desc.type then
    if availableEnd < desc.physicalStart then some (.between availableEnd desc.physicalStart)
    else none
  else some { MarkCall.between availableEnd desc.physicalEnd with hi := desc.exactEnd }

/-- `available_end` after one round. -/
def nextEnd (availableEnd : Nat) (desc : MemoryDescriptor) : Nat :=
  if isAvailable desc.type then desc.physicalEnd else availableEnd

/-- The calls of the descriptor loop, in order. -/
def descriptorCalls : Nat → List MemoryDescriptor → List MarkCall
  | _, [] => []
  | availableEnd, d :: rest =>
    (visitCall availableEnd d).toList ++ descriptorCalls (nextEnd availableEnd d) rest

/-- The call that `InitializeHeap` makes through `Allocate`. -/
def heapCall (mm : BitmapMemoryManager) : Option MarkCall :=
  let (heapStart, _) := mm.allocate kHeapFrames
  if heapStart.error = .kSuccess then
    some ⟨heapStart.value, kHeapFrames, heapStart.value * kBytesPerFrame,
      (heapStart.value + kHeapFrames) * kBytesPerFrame⟩
  else none

/-- All calls of `InitializeMemoryManager` on the manager `mm₀` that the constructor left. -/
def initCalls (mm₀ : BitmapMemoryManager) (mem : Nat → UInt8) (map : MemoryMap) : List MarkCall :=
  match descriptorLoop mem map map.mapSize map.buffer (mm₀, 0) with
  | some (mm, availableEnd) =>
    descriptorCalls 0 (map.descriptors mem) ++
      (heapCall (mm.setMemoryRange 1 (availableEnd / kBytesPerFrame))).toList
  | none => descriptorCalls 0 (map.descriptors mem)

/-- The constructor clears the array; the words behind it hold what was there. -/
def BitmapMemoryManager.ArrayCleared (mm : BitmapMemoryManager) : Prop :=
  ∀ line < kMapLines, mm.allocMap line = 0#64

/-! ## The calls are what the loop does to the bitmap -/

theorem visitDescriptor_eq (mm : BitmapMemoryManager) (availableEnd : Nat) (d : MemoryDescriptor) :
    visitDescriptor (mm, availableEnd) d =
      ((visitCall availableEnd d).toList.foldl MarkCall.apply mm, nextEnd availableEnd d) := by
  unfold visitDescriptor visitCall nextEnd
  cases isAvailable d.type with
  | false => rfl
  | true => by_cases hhole : availableEnd < d.physicalStart <;> simp [hhole, MarkCall.apply, MarkCall.between]

theorem foldl_visitDescriptor (descs : List MemoryDescriptor) (mm : BitmapMemoryManager)
    (availableEnd : Nat) :
    descs.foldl visitDescriptor (mm, availableEnd) =
      ((descriptorCalls availableEnd descs).foldl MarkCall.apply mm,
        descs.foldl nextEnd availableEnd) := by
  induction descs generalizing mm availableEnd with
  | nil => rfl
  | cons d rest ih =>
    rw [List.foldl_cons, visitDescriptor_eq, ih, descriptorCalls, List.foldl_append, List.foldl_cons]

theorem initCalls_eq {mm₀ : BitmapMemoryManager} {mem : Nat → UInt8} {map : MemoryMap}
    (hsize : 0 < map.descriptorSize) :
    initCalls mm₀ mem map = descriptorCalls 0 (map.descriptors mem) ++
      (heapCall (((descriptorCalls 0 (map.descriptors mem)).foldl MarkCall.apply mm₀).setMemoryRange 1
        ((map.descriptors mem).foldl nextEnd 0 / kBytesPerFrame))).toList := by
  have hloop : descriptorLoop mem map map.mapSize map.buffer (mm₀, 0) =
      some ((map.descriptors mem).foldl visitDescriptor (mm₀, 0)) :=
    descriptorLoop_eq_foldl hsize _ _ _ _ (by omega) (by rw [Nat.add_sub_cancel_left])
  rw [initCalls, hloop, foldl_visitDescriptor]

theorem mem_descriptorCalls {descs : List MemoryDescriptor} {availableEnd : Nat} {c : MarkCall} :
    c ∈ descriptorCalls availableEnd descs ↔ ∃ before d after, descs = before ++ d :: after ∧
      visitCall (before.foldl nextEnd availableEnd) d = some c := by
  induction descs generalizing availableEnd with
  | nil =>
    constructor
    · exact fun h => absurd h List.not_mem_nil
    · rintro ⟨before, d, after, hsplit, -⟩
      simp at hsplit
  | cons d rest ih =>
    rw [descriptorCalls, List.mem_append, Option.mem_toList, ih]
    constructor
    · rintro (h | ⟨before, e, after, rfl, h⟩)
      · exact ⟨[], d, rest, rfl, h⟩
      · exact ⟨d :: before, e, after, rfl, h⟩
    · rintro ⟨before, e, after, hsplit, h⟩
      cases before with
      | nil =>
        obtain ⟨rfl, rfl⟩ := List.cons.inj hsplit
        exact .inl h
      | cons b before =>
        obtain ⟨rfl, rfl⟩ := List.cons.inj hsplit
        exact .inr ⟨before, e, after, rfl, h⟩

theorem getBit_foldl_apply (calls : List MarkCall) (mm : BitmapMemoryManager) (f : Nat) :
    (calls.foldl MarkCall.apply mm).getBit f = true ↔
      mm.getBit f = true ∨ ∃ c ∈ calls, f ∈ c.frames := by
  induction calls generalizing mm with
  | nil => simp
  | cons c rest ih =>
    rw [List.foldl_cons, ih, MarkCall.apply, getBit_markAllocated, Bool.or_eq_true,
      decide_eq_true_iff, List.exists_mem_cons_iff, MarkCall.frames]
    tauto

/-! ## When all calls stay inside -/

/-- The end of the last available descriptor, 0 when there is none. -/
def lastAvailableEnd (descs : List MemoryDescriptor) : Nat :=
  match (descs.filter fun d => isAvailable d.type).getLast? with
  | some d => d.exactEnd
  | none => 0

/-- What UEFI promises of a map: page-aligned regions of 64-bit addresses, no two of which meet. -/
structure UefiMap (descs : List MemoryDescriptor) : Prop where
  aligned : ∀ d ∈ descs, d.physicalStart % kUEFIPageSize = 0
  disjoint : descs.Pairwise fun a b => a.exactEnd ≤ b.physicalStart ∨ b.exactEnd ≤ a.physicalStart
  addresses : ∀ d ∈ descs, d.exactEnd < 2 ^ 64

/-- Where the marks of a round end: at the start of an available region, at the end of another. -/
def MemoryDescriptor.markedTo (desc : MemoryDescriptor) : Nat :=
  if isAvailable desc.type then desc.physicalStart else desc.exactEnd

/-- Frame `f` lies between the last available end and a descriptor that follows. -/
def SkippedFrame (descs : List MemoryDescriptor) (f : Nat) : Prop :=
  ∃ before d after, descs = before ++ d :: after ∧ lastAvailableEnd before ≤ f * kBytesPerFrame ∧
    f * kBytesPerFrame < d.markedTo

/-- Room for the heap from frame `s` on: no frame skipped, and all below the last available end. -/
def HeapRoom (descs : List MemoryDescriptor) (s : Nat) : Prop :=
  1 ≤ s ∧ s + kHeapFrames ≤ lastAvailableEnd descs / kBytesPerFrame ∧
    ∀ f, s ≤ f → f < s + kHeapFrames → ¬ SkippedFrame descs f

/-- No unavailable descriptor ends below the last available end before it, no marked address is above
128 GiB, and the lowest room for the heap ends below 128 GiB. -/
structure MarksInOrder (descs : List MemoryDescriptor) : Prop where
  unavailable : ∀ before d after, descs = before ++ d :: after → isAvailable d.type = false →
    lastAvailableEnd before ≤ d.exactEnd ∧ d.exactEnd ≤ kMaxPhysicalMemoryBytes
  available : ∀ before d after, descs = before ++ d :: after → isAvailable d.type = true →
    lastAvailableEnd before < d.physicalStart → d.physicalStart ≤ kMaxPhysicalMemoryBytes
  heap : ∀ s, IsLeast {q | HeapRoom descs q} s → s + kHeapFrames ≤ kFrameCount

namespace UefiMap

variable {descs before after : List MemoryDescriptor} {d : MemoryDescriptor}

theorem of_append (h : UefiMap (before ++ after)) : UefiMap before :=
  ⟨fun d hd => h.aligned d (List.mem_append_left _ hd), (List.pairwise_append.mp h.disjoint).1,
    fun d hd => h.addresses d (List.mem_append_left _ hd)⟩

theorem physicalEnd_eq (h : UefiMap descs) (hd : d ∈ descs) : d.physicalEnd = d.exactEnd := by
  have hlt := h.addresses d hd
  unfold MemoryDescriptor.exactEnd kUEFIPageSize at *
  unfold MemoryDescriptor.physicalEnd add64 mul64 kUEFIPageSize
  omega

theorem exactEnd_aligned (h : UefiMap descs) (hd : d ∈ descs) : d.exactEnd % 4096 = 0 := by
  have haligned := h.aligned d hd
  unfold kUEFIPageSize at haligned
  unfold MemoryDescriptor.exactEnd kUEFIPageSize
  omega

/-- The running `available_end` is the end of the last available descriptor. -/
theorem foldl_nextEnd (h : UefiMap descs) : descs.foldl nextEnd 0 = lastAvailableEnd descs := by
  induction descs using List.reverseRecOn with
  | nil => rfl
  | append_singleton before d ih =>
    have hend := h.physicalEnd_eq (List.mem_append_right before (List.mem_singleton_self d))
    rw [List.foldl_append, ih h.of_append, List.foldl_cons, List.foldl_nil, nextEnd]
    cases hd : isAvailable d.type with
    | false => simp [lastAvailableEnd, List.filter_append, hd]
    | true => simp [lastAvailableEnd, List.filter_append, hd, hend]

theorem lastAvailableEnd_bounds (h : UefiMap descs) :
    lastAvailableEnd descs % 4096 = 0 ∧ lastAvailableEnd descs < 2 ^ 64 := by
  unfold lastAvailableEnd
  cases hlast : (descs.filter fun d => isAvailable d.type).getLast? with
  | none => exact ⟨rfl, by decide⟩
  | some d =>
    have hd : d ∈ descs := List.mem_of_mem_filter (List.mem_of_getLast? hlast)
    exact ⟨h.exactEnd_aligned hd, h.addresses d hd⟩

/-- A call of the loop runs from the last available end to where the round's marks end; only an
available region that starts at or before that end makes none. -/
theorem mem_calls (h : UefiMap descs) {c : MarkCall} :
    c ∈ descriptorCalls 0 descs ↔ ∃ before d after, descs = before ++ d :: after ∧
      (isAvailable d.type = true → lastAvailableEnd before < d.physicalStart) ∧
      c = .between (lastAvailableEnd before) d.markedTo := by
  rw [mem_descriptorCalls]
  refine exists_congr fun before => exists_congr fun d => exists_congr fun after =>
    and_congr_right fun hsplit => ?_
  subst hsplit
  have hd : d ∈ before ++ d :: after := List.mem_append_right _ List.mem_cons_self
  rw [foldl_nextEnd h.of_append, visitCall, h.physicalEnd_eq hd, MemoryDescriptor.markedTo]
  cases hav : isAvailable d.type with
  | false =>
    simp only [Bool.false_eq_true, if_false, Option.some.injEq, false_implies, true_and]
    exact eq_comm
  | true =>
    -- only the hole in front of an available region is marked
    by_cases hhole : lastAvailableEnd before < d.physicalStart
    · simp only [if_true, hhole, Option.some.injEq, implies_true, true_and]
      exact eq_comm
    · simp only [if_true, hhole, if_false, reduceCtorEq, true_implies, false_and]

/-- The two addresses of a round are page-aligned 64-bit addresses. -/
theorem round_bounds (h : UefiMap (before ++ d :: after)) :
    (lastAvailableEnd before % 4096 = 0 ∧ d.markedTo % 4096 = 0) ∧
      lastAvailableEnd before < 2 ^ 64 ∧ d.markedTo < 2 ^ 64 := by
  have hd : d ∈ before ++ d :: after := List.mem_append_right _ List.mem_cons_self
  obtain ⟨haligned, hbound⟩ := lastAvailableEnd_bounds h.of_append
  have hstart : d.physicalStart % 4096 = 0 := h.aligned d hd
  have hend := h.exactEnd_aligned hd
  have hlt := h.addresses d hd
  have hle : d.physicalStart ≤ d.exactEnd := Nat.le_add_right _ _
  unfold MemoryDescriptor.markedTo
  cases isAvailable d.type with
  | false => exact ⟨⟨haligned, hend⟩, hbound, hlt⟩
  | true => exact ⟨⟨haligned, hstart⟩, hbound, lt_of_le_of_lt hle hlt⟩

/-- The call of a round is inside exactly when it does not run backwards and ends by 128 GiB. -/
theorem round_inside_iff (h : UefiMap (before ++ d :: after)) :
    (MarkCall.between (lastAvailableEnd before) d.markedTo).Inside ↔
      lastAvailableEnd before ≤ d.markedTo ∧ d.markedTo ≤ kMaxPhysicalMemoryBytes := by
  obtain ⟨⟨hlo, hhi⟩, hlow, hhigh⟩ := h.round_bounds
  exact MarkCall.inside_between_iff hlo hhi hlow hhigh

/-- The loop's calls are inside exactly under the first two conditions of `MarksInOrder`. -/
theorem calls_inside_iff (h : UefiMap descs) :
    (∀ c ∈ descriptorCalls 0 descs, c.Inside) ↔
      (∀ before d after, descs = before ++ d :: after → isAvailable d.type = false →
        lastAvailableEnd before ≤ d.exactEnd ∧ d.exactEnd ≤ kMaxPhysicalMemoryBytes) ∧
      ∀ before d after, descs = before ++ d :: after → isAvailable d.type = true →
        lastAvailableEnd before < d.physicalStart → d.physicalStart ≤ kMaxPhysicalMemoryBytes := by
  constructor
  · intro hall
    refine ⟨fun before d after hsplit hd => ?_, fun before d after hsplit hd hlt => ?_⟩
    · have hnot : isAvailable d.type = true → lastAvailableEnd before < d.physicalStart :=
        fun hav => absurd hav (by rw [hd]; decide)
      have hin := hall _ (h.mem_calls.mpr ⟨before, d, after, hsplit, hnot, rfl⟩)
      rw [round_inside_iff (hsplit ▸ h), MemoryDescriptor.markedTo, hd] at hin
      exact hin
    · have hin := hall _ (h.mem_calls.mpr ⟨before, d, after, hsplit, fun _ => hlt, rfl⟩)
      rw [round_inside_iff (hsplit ▸ h), MemoryDescriptor.markedTo, hd] at hin
      exact hin.2
  · -- each call is that of a round
    rintro ⟨hun, hav⟩ c hc
    obtain ⟨before, d, after, hsplit, hhole, rfl⟩ := h.mem_calls.mp hc
    rw [round_inside_iff (hsplit ▸ h), MemoryDescriptor.markedTo]
    cases hd : isAvailable d.type with
    | false => exact hun before d after hsplit hd
    | true => exact ⟨(hhole hd).le, hav before d after hsplit hd (hhole hd)⟩

/-- When all calls are inside, the loop marks exactly the skipped frames. -/
theorem marked_iff_skipped (h : UefiMap descs) (hall : ∀ c ∈ descriptorCalls 0 descs, c.Inside)
    (f : Nat) : (∃ c ∈ descriptorCalls 0 descs, f ∈ c.frames) ↔ SkippedFrame descs f := by
  constructor
  · rintro ⟨c, hc, hf⟩
    have hin := hall c hc
    obtain ⟨before, d, after, hsplit, -, rfl⟩ := h.mem_calls.mp hc
    obtain ⟨⟨hlo, hhi⟩, -, hhigh⟩ := (hsplit ▸ h : UefiMap (before ++ d :: after)).round_bounds
    exact ⟨before, d, after, hsplit, (MarkCall.mem_frames_between hlo hhi hin.le hhigh f).mp hf⟩
  · rintro ⟨before, d, after, hsplit, hlo, hhi⟩
    have hc := h.mem_calls.mpr ⟨before, d, after, hsplit, fun hav => by
      rw [MemoryDescriptor.markedTo, if_pos hav] at hhi
      exact lt_of_le_of_lt hlo hhi, rfl⟩
    obtain ⟨⟨halo, hahi⟩, -, hhigh⟩ := (hsplit ▸ h : UefiMap (before ++ d :: after)).round_bounds
    exact ⟨_, hc, (MarkCall.mem_frames_between halo hahi (hall _ hc).le hhigh f).mpr ⟨hlo, hhi⟩⟩

end UefiMap

/-! ## The call for the heap -/

theorem heapCall_inside_iff (mm : BitmapMemoryManager) :
    (∀ c ∈ heapCall mm, c.Inside) ↔
      ∀ s, IsLeast {q | mm.Fits kHeapFrames q} s → s + kHeapFrames ≤ kFrameCount := by
  rcases mm.allocate_isLeast_or (n := kHeapFrames) (by decide) with ⟨s, hleast, heq⟩ | ⟨hnone, heq⟩
  · -- the heap is the lowest block that fits
    have hcall : heapCall mm = some ⟨s, kHeapFrames, s * kBytesPerFrame,
        (s + kHeapFrames) * kBytesPerFrame⟩ := by
      rw [heapCall, heq]
      rfl
    constructor
    · intro hall s' hleast'
      rw [← hleast.unique hleast']
      exact (hall _ hcall).fits
    · intro hall c hc
      rw [hcall] at hc
      cases hc
      refine ⟨Nat.mul_le_mul_right _ (Nat.le_add_right _ _), ?_, hall s hleast⟩
      rw [← Nat.sub_mul, Nat.add_sub_cancel_left, Nat.mul_div_cancel _ (by decide)]
  · -- without room there is no call
    have hcall : heapCall mm = none := by
      rw [heapCall, heq]
      rfl
    constructor
    · exact fun _ s hleast => absurd ⟨s, hleast.1⟩ hnone
    · intro _ c hc
      rw [hcall] at hc
      cases hc

/-- The manager as `InitializeHeap` finds it, when the constructor left `mm₀`. -/
def loopManager (mm₀ : BitmapMemoryManager) (descs : List MemoryDescriptor) : BitmapMemoryManager :=
  ((descriptorCalls 0 descs).foldl MarkCall.apply mm₀).setMemoryRange 1
    (descs.foldl nextEnd 0 / kBytesPerFrame)

namespace UefiMap

variable {descs : List MemoryDescriptor}

theorem loopManager_fits (h : UefiMap descs) (mm₀ : BitmapMemoryManager) (n s : Nat) :
    (loopManager mm₀ descs).Fits n s ↔ 1 ≤ s ∧ s + n ≤ lastAvailableEnd descs / kBytesPerFrame ∧
      ∀ f, s ≤ f → f < s + n → mm₀.getBit f = false ∧
        ¬ ∃ c ∈ descriptorCalls 0 descs, f ∈ c.frames := by
  have hbit : ∀ f, (loopManager mm₀ descs).getBit f = false ↔
      mm₀.getBit f = false ∧ ¬ ∃ c ∈ descriptorCalls 0 descs, f ∈ c.frames := by
    intro f
    have hfold := getBit_foldl_apply (descriptorCalls 0 descs) mm₀ f
    rw [← Bool.not_eq_true, ← Bool.not_eq_true, ← not_or, ← hfold]
    rfl
  rw [BitmapMemoryManager.Fits, ← h.foldl_nextEnd]
  simp only [hbit]
  rfl

/-- The room found by the loop's bitmap is what the map leaves free, below 128 GiB whatever the words
behind the array hold, and above it when they hold no mark. -/
theorem heap_inside_iff (h : UefiMap descs) (hall : ∀ c ∈ descriptorCalls 0 descs, c.Inside) :
    (∀ mm₀ : BitmapMemoryManager, mm₀.ArrayCleared → ∀ c ∈ heapCall (loopManager mm₀ descs),
      c.Inside) ↔ ∀ s, IsLeast {q | HeapRoom descs q} s → s + kHeapFrames ≤ kFrameCount := by
  have hmarked := h.marked_iff_skipped hall
  constructor
  · -- with no mark behind the array, the block is the lowest room in the map
    intro hin s hleast
    have hinit := (heapCall_inside_iff _).mp (hin .init fun _ _ => rfl)
    apply hinit s
    have hsame : {q | (loopManager .init descs).Fits kHeapFrames q} = {q | HeapRoom descs q} := by
      ext q
      have hclear : ∀ f, BitmapMemoryManager.init.getBit f = false := fun f => by
        simp [BitmapMemoryManager.getBit, BitmapMemoryManager.init]
      simp only [Set.mem_ofPred_eq, h.loopManager_fits, hmarked, hclear, true_and, HeapRoom]
    rw [hsame]
    exact hleast
  · intro hroom mm₀ hclear
    rw [heapCall_inside_iff]
    intro s hleast
    have hfits := (h.loopManager_fits mm₀ kHeapFrames s).mp hleast.1
    have hs : HeapRoom descs s := by
      refine ⟨hfits.1, hfits.2.1, fun f hlo hhi => ?_⟩
      rw [← hmarked]
      exact (hfits.2.2 f hlo hhi).2
    -- the lowest room ends below 128 GiB, where the constructor cleared every bit
    obtain ⟨t, ht, hmin⟩ : ∃ t, HeapRoom descs t ∧ ∀ q, HeapRoom descs q → t ≤ q := by
      classical
      exact ⟨Nat.find ⟨s, hs⟩, Nat.find_spec ⟨s, hs⟩, fun q hq => Nat.find_min' ⟨s, hs⟩ hq⟩
    have hend := hroom t ⟨ht, hmin⟩
    have htfits : (loopManager mm₀ descs).Fits kHeapFrames t := by
      rw [h.loopManager_fits]
      refine ⟨ht.1, ht.2.1, fun f hlo hhi => ⟨?_, ?_⟩⟩
      · have hline : f / kBitsPerMapLine < kMapLines := by
          have hcount : kFrameCount = 64 * kMapLines := by decide
          unfold kBitsPerMapLine
          omega
        rw [BitmapMemoryManager.getBit_eq_get, WordBitmap.get]
        have hword := hclear _ hline
        unfold kBitsPerMapLine at hword
        rw [hword, BitVec.getLsbD_zero]
      · rw [hmarked]
        exact ht.2.2 f hlo hhi
    have := hleast.2 htfits
    have := hmin s hs
    omega

end UefiMap

/-- **When the marks of `InitializeMemoryManager` stay inside the bitmap.**  For a page-aligned map of
disjoint regions, in whatever order and whatever lies in memory behind the array: every call of
`MarkAllocated` has the exact, non-negative count and ends within the bitmap exactly when the map
is in order as `MarksInOrder` says. -/
theorem initCalls_inside_iff {mem : Nat → UInt8} {map : MemoryMap} (hsize : 0 < map.descriptorSize)
    (hmap : UefiMap (map.descriptors mem)) :
    (∀ mm₀ : BitmapMemoryManager, mm₀.ArrayCleared → ∀ c ∈ initCalls mm₀ mem map, c.Inside) ↔
      MarksInOrder (map.descriptors mem) := by
  have hsplit : (∀ mm₀ : BitmapMemoryManager, mm₀.ArrayCleared →
        ∀ c ∈ initCalls mm₀ mem map, c.Inside) ↔
      (∀ c ∈ descriptorCalls 0 (map.descriptors mem), c.Inside) ∧
        ∀ mm₀ : BitmapMemoryManager, mm₀.ArrayCleared →
          ∀ c ∈ heapCall (loopManager mm₀ (map.descriptors mem)), c.Inside := by
    simp only [initCalls_eq hsize, List.mem_append, Option.mem_toList, or_imp, forall_and]
    exact and_congr_left' ⟨fun h => h .init fun _ _ => rfl, fun h _ _ => h⟩
  rw [hsplit]
  constructor
  · rintro ⟨hcalls, hheap⟩
    obtain ⟨hun, hav⟩ := hmap.calls_inside_iff.mp hcalls
    exact ⟨hun, hav, (hmap.heap_inside_iff hcalls).mp hheap⟩
  · rintro ⟨hun, hav, hheap⟩
    have hcalls := hmap.calls_inside_iff.mpr ⟨hun, hav⟩
    exact ⟨hcalls, (hmap.heap_inside_iff hcalls).mpr hheap⟩

theorem holeMap_descriptors :
    holeMap.descriptors holeMapBytes = [⟨7, 0, 2⟩, ⟨7, 0x3000, 1⟩] := by decide

theorem initCalls_inside_hole : UefiMap (holeMap.descriptors holeMapBytes) ∧
    ∀ mm₀ : BitmapMemoryManager, mm₀.ArrayCleared →
      ∀ c ∈ initCalls mm₀ holeMapBytes holeMap, c.Inside := by
  have hmap : UefiMap (holeMap.descriptors holeMapBytes) := by
    rw [holeMap_descriptors]
    exact ⟨by decide, by decide, by decide⟩
  refine ⟨hmap, (initCalls_inside_iff (by decide) hmap).mpr ?_⟩
  rw [holeMap_descriptors]
  refine ⟨?_, ?_, ?_⟩
  · intro before d after hsplit hd
    have hmem : d ∈ [(⟨7, 0, 2⟩ : MemoryDescriptor), ⟨7, 0x3000, 1⟩] :=
      hsplit ▸ List.mem_append_right _ List.mem_cons_self
    simp only [List.mem_cons, List.not_mem_nil, or_false] at hmem
    rcases hmem with rfl | rfl <;> exact absurd hd (by decide)
  · intro before d after hsplit hd _
    have hmem : d ∈ [(⟨7, 0, 2⟩ : MemoryDescriptor), ⟨7, 0x3000, 1⟩] :=
      hsplit ▸ List.mem_append_right _ List.mem_cons_self
    simp only [List.mem_cons, List.not_mem_nil, or_false] at hmem
    rcases hmem with rfl | rfl <;> decide
  · intro s hleast
    have hroom := hleast.1.2.1
    have hend : lastAvailableEnd [⟨7, 0, 2⟩, ⟨7, 0x3000, 1⟩] / kBytesPerFrame = 4 := by decide
    rw [hend] at hroom
    exact absurd hroom (by unfold kHeapFrames; omega)

/-- A free page at page 3 in front of a reserved page 1: the count of the second round is negative. -/
def disorderedMapBytes : Nat → UInt8 :=
  writeLE (writeLE (writeLE (writeLE (writeLE (fun _ => 0) 0 4 7) 8 8 0x3000) 24 8 1) 56 8 0x1000) 72 8 1

/-- Free memory below, and one reserved page at 128 GiB: its round marks frame `kFrameCount`. -/
def highReservedMapBytes : Nat → UInt8 :=
  writeLE (writeLE (writeLE (writeLE (fun _ => 0) 0 4 7) 24 8 0x20000) 56 8 (2 ^ 37)) 72 8 1

theorem initCalls_leave_the_bitmap :
    UefiMap (holeMap.descriptors disorderedMapBytes) ∧
    (∃ c ∈ initCalls .init disorderedMapBytes holeMap, c.hi < c.lo) ∧
    UefiMap (holeMap.descriptors highReservedMapBytes) ∧
    ∃ c ∈ initCalls .init highReservedMapBytes holeMap,
      c.startFrame ≤ kFrameCount ∧ kFrameCount < c.startFrame + c.numFrames := by
  have hlow : holeMap.descriptors disorderedMapBytes = [⟨7, 0x3000, 1⟩, ⟨0, 0x1000, 1⟩] := by decide
  have hhigh : holeMap.descriptors highReservedMapBytes =
      [⟨7, 0, 0x20000⟩, ⟨0, 2 ^ 37, 1⟩] := by decide
  refine ⟨?_, ⟨⟨4, sub64 0x2000 0x4000 / 4096, 0x4000, 0x2000⟩, ?_, by decide⟩, ?_,
    ⟨⟨0x20000, 0x1FE0001, 0x20000000, 2 ^ 37 + 0x1000⟩, ?_, by decide, by decide⟩⟩
  · rw [hlow]
    exact ⟨by decide, by decide, by decide⟩
  · rw [initCalls_eq (by decide), hlow]
    exact List.mem_append_left _ (by decide)
  · rw [hhigh]
    exact ⟨by decide, by decide, by decide⟩
  · rw [initCalls_eq (by decide), hhigh]
    exact List.mem_append_left _ (by decide)

end MikanSaos
