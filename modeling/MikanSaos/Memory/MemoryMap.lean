import MikanSaos.Memory.OutstandingBlocks
import MikanSaos.Reasoning.LittleEndian
import MikanSaos.Word64

/-!
# MemoryMap — from the UEFI memory map to the first bitmap

`InitializeMemoryManager` walks the descriptors with one running end pointer, `availableEnd`: the end
of the last available descriptor so far.  Holes and unavailable regions are marked from there on.
Addresses and sizes are 64-bit, so sums and differences are taken modulo `2 ^ 64`.
-/

open Reasoning

namespace MikanSaos

inductive MemoryType where
  | kEfiReservedMemoryType | kEfiLoaderCode | kEfiLoaderData | kEfiBootServicesCode
  | kEfiBootServicesData | kEfiRuntimeServicesCode | kEfiRuntimeServicesData
  | kEfiConventionalMemory | kEfiUnusableMemory | kEfiACPIReclaimMemory | kEfiACPIMemoryNVS
  | kEfiMemoryMappedIO | kEfiMemoryMappedIOPortSpace | kEfiPalCode | kEfiPersistentMemory
  | kEfiMaxMemoryType
  deriving DecidableEq, Repr

/-- The number of an enumerator: they are counted from 0 in the order of the declaration. -/
def MemoryType.code (t : MemoryType) : Nat := t.ctorIdx

/-- `IsAvailable` on the 32-bit type field of a descriptor, which need not be an enumerator. -/
def isAvailable (memoryType : Nat) : Bool :=
  memoryType == MemoryType.kEfiBootServicesCode.code ||
  memoryType == MemoryType.kEfiBootServicesData.code ||
  memoryType == MemoryType.kEfiConventionalMemory.code

def kUEFIPageSize : Nat := 4096

structure MemoryDescriptor where
  type : Nat
  physicalStart : Nat
  numberOfPages : Nat
  deriving DecidableEq

/-- The fields of `reinterpret_cast<const MemoryDescriptor*>(addr)` that the loop uses: the 32-bit
type, and behind its padding the 64-bit fields, of which the second is `virtual_start`. -/
def MemoryDescriptor.read (mem : Nat → UInt8) (addr : Nat) : MemoryDescriptor where
  type := readLE mem addr 4
  physicalStart := readLE mem (addr + 8) 8
  numberOfPages := readLE mem (addr + 24) 8

structure MemoryMap where
  buffer : Nat
  mapSize : Nat
  descriptorSize : Nat

def MemoryDescriptor.physicalEnd (desc : MemoryDescriptor) : Nat :=
  add64 desc.physicalStart (mul64 desc.numberOfPages kUEFIPageSize)

/-- The body of the descriptor loop, on the manager and `available_end`. -/
def visitDescriptor (st : BitmapMemoryManager × Nat) (desc : MemoryDescriptor) :
    BitmapMemoryManager × Nat :=
  let (mm, availableEnd) := st
  if isAvailable desc.type then
    (if availableEnd < desc.physicalStart then
        mm.markAllocated (availableEnd / kBytesPerFrame)
          (sub64 desc.physicalStart availableEnd / kBytesPerFrame)
      else mm, desc.physicalEnd)
  else
    (mm.markAllocated (availableEnd / kBytesPerFrame)
      (sub64 desc.physicalEnd availableEnd / kBytesPerFrame), availableEnd)

/-- The descriptor loop; `none` when `rounds` of it did not come to the end of the map. -/
def descriptorLoop (mem : Nat → UInt8) (map : MemoryMap) :
    Nat → Nat → BitmapMemoryManager × Nat → Option (BitmapMemoryManager × Nat)
  | rounds, iter, st =>
    if iter < map.buffer + map.mapSize then
      match rounds with
      | 0 => none
      | rounds + 1 =>
        descriptorLoop mem map rounds (iter + map.descriptorSize)
          (visitDescriptor st (MemoryDescriptor.read mem iter))
    else some st

/-- `InitializeMemoryManager` up to and including `SetMemoryRange`.  A positive descriptor size moves
`iter` on by a byte at least, so `mapSize` rounds are enough. -/
def markMemoryMap (mem : Nat → UInt8) (map : MemoryMap) : Option BitmapMemoryManager :=
  match descriptorLoop mem map map.mapSize map.buffer (.init, 0) with
  | some (mm, availableEnd) => some (mm.setMemoryRange 1 (availableEnd / kBytesPerFrame))
  | none => none

/-- 64 * 512 frames, 128 MiB. -/
def kHeapFrames : Nat := 64 * 512

/-- `InitializeHeap`: the heap between `program_break` and `program_break_end`. -/
def initializeHeap (mm : BitmapMemoryManager) : WithError (Nat × Nat) × BitmapMemoryManager :=
  let (heapStart, mm') := mm.allocate kHeapFrames
  if heapStart.error = .kSuccess then
    let programBreak := heapStart.value * kBytesPerFrame
    (⟨(programBreak, programBreak + kHeapFrames * kBytesPerFrame), .kSuccess⟩, mm')
  else (⟨(0, 0), heapStart.error⟩, mm')

/-- `InitializeMemoryManager`; `none` is the endless `hlt` after a failed `InitializeHeap`. -/
def initializeMemoryManager (mem : Nat → UInt8) (map : MemoryMap) :
    Option ((Nat × Nat) × BitmapMemoryManager) :=
  match markMemoryMap mem map with
  | none => none
  | some mm =>
    match initializeHeap mm with
    | (⟨heap, .kSuccess⟩, mm') => some (heap, mm')
    | _ => none

/-! ## The descriptors of a map, in order -/

/-- The descriptors at `iter`, `iter + descriptorSize`, … before the end of the map. -/
def MemoryMap.descriptors (map : MemoryMap) (mem : Nat → UInt8) : List MemoryDescriptor :=
  (List.range ((map.mapSize + map.descriptorSize - 1) / map.descriptorSize)).map
    fun k => MemoryDescriptor.read mem (map.buffer + k * map.descriptorSize)

theorem descriptorLoop_eq_foldl {mem : Nat → UInt8} {map : MemoryMap}
    (hsize : 0 < map.descriptorSize) (rounds left iter : Nat) (st : BitmapMemoryManager × Nat)
    (hrounds : map.buffer + map.mapSize - iter ≤ rounds)
    (hleft : left = (map.buffer + map.mapSize - iter + map.descriptorSize - 1)
      / map.descriptorSize) :
    descriptorLoop mem map rounds iter st =
      some (((List.range left).map
        fun k => MemoryDescriptor.read mem (iter + k * map.descriptorSize)).foldl
          visitDescriptor st) := by
  induction rounds generalizing left iter st with
  | zero =>
    rw [descriptorLoop, if_neg (by omega), hleft,
      Nat.div_eq_of_lt (by omega), List.range_zero, List.map_nil, List.foldl_nil]
  | succ rounds ih =>
    rw [descriptorLoop]
    by_cases hlt : iter < map.buffer + map.mapSize
    · rw [if_pos hlt]
      obtain ⟨left', rfl⟩ : ∃ left', left = left' + 1 := by
        refine ⟨left - 1, ?_⟩
        have : 0 < left := by
          rw [hleft]
          exact Nat.div_pos (by omega) hsize
        omega
      have hleft' : left' = (map.buffer + map.mapSize - (iter + map.descriptorSize)
          + map.descriptorSize - 1) / map.descriptorSize := by
        by_cases hlast : map.buffer + map.mapSize ≤ iter + map.descriptorSize
        · rw [Nat.div_eq_of_lt (by omega)]
          have hone : left' + 1 < 2 := by
            rw [hleft]
            exact Nat.div_lt_of_lt_mul (by omega)
          omega
        · have hstep : map.buffer + map.mapSize - iter + map.descriptorSize - 1 =
              map.buffer + map.mapSize - (iter + map.descriptorSize) + map.descriptorSize - 1
                + map.descriptorSize := by omega
          rw [hstep, Nat.add_div_right _ hsize] at hleft
          omega
      rw [ih left' (iter + map.descriptorSize) _ (by omega) hleft', List.range_succ_eq_map,
        List.map_cons, List.foldl_cons, List.map_map]
      have hread : (fun k => MemoryDescriptor.read mem
          (iter + map.descriptorSize + k * map.descriptorSize)) =
          (fun k => MemoryDescriptor.read mem (iter + k * map.descriptorSize)) ∘ Nat.succ := by
        funext k
        simp only [Function.comp, Nat.succ_mul]
        congr 1
        omega
      rw [hread, Nat.zero_mul, Nat.add_zero]
    · rw [if_neg hlt, hleft, Nat.div_eq_of_lt (by omega), List.range_zero, List.map_nil,
        List.foldl_nil]

/-! ## The marks the loop leaves behind -/

/-- The page of frame `f` lies in the descriptor. -/
def MemoryDescriptor.Covers (desc : MemoryDescriptor) (f : Nat) : Prop :=
  desc.physicalStart ≤ f * kBytesPerFrame ∧ (f + 1) * kBytesPerFrame ≤ desc.physicalEnd

instance (desc : MemoryDescriptor) (f : Nat) : Decidable (desc.Covers f) :=
  inferInstanceAs (Decidable (_ ∧ _))

/-- Page-aligned descriptors below 128 GiB, each one behind all earlier ones. -/
structure WellFormedMap (descs : List MemoryDescriptor) : Prop where
  aligned : ∀ d ∈ descs, d.physicalStart % kUEFIPageSize = 0
  sorted : descs.Pairwise fun a b => a.physicalEnd ≤ b.physicalStart
  below : ∀ d ∈ descs, d.physicalStart + d.numberOfPages * kUEFIPageSize ≤ kMaxPhysicalMemoryBytes

namespace WellFormedMap

variable {descs seen rest : List MemoryDescriptor} {d : MemoryDescriptor}

theorem physicalEnd_eq (h : WellFormedMap descs) (hd : d ∈ descs) :
    d.physicalEnd = d.physicalStart + d.numberOfPages * 4096 := by
  have hbelow := h.below d hd
  unfold kMaxPhysicalMemoryBytes kUEFIPageSize at hbelow
  unfold MemoryDescriptor.physicalEnd add64 mul64 kUEFIPageSize
  omega

/-- The end of a descriptor: page-aligned, below 128 GiB and not before its start. -/
theorem physicalEnd_bounds (h : WellFormedMap descs) (hd : d ∈ descs) :
    d.physicalEnd % 4096 = 0 ∧ d.physicalEnd ≤ 2 ^ 37 ∧ d.physicalStart ≤ d.physicalEnd := by
  have haligned := h.aligned d hd
  have hbelow := h.below d hd
  have heq := h.physicalEnd_eq hd
  unfold kUEFIPageSize at haligned hbelow
  unfold kMaxPhysicalMemoryBytes at hbelow
  refine ⟨?_, ?_, ?_⟩ <;> omega

/-- A descriptor that comes later in the map starts behind the end of an earlier one. -/
theorem end_le_start (h : WellFormedMap (seen ++ d :: rest)) {e : MemoryDescriptor}
    (he : e ∈ seen) : e.physicalEnd ≤ d.physicalStart :=
  (List.pairwise_append.mp h.sorted).2.2 e he d List.mem_cons_self

end WellFormedMap

/-- What the loop knows after the descriptors in `seen`. -/
structure MarksInv (seen : List MemoryDescriptor) (st : BitmapMemoryManager × Nat) : Prop where
  aligned : st.2 % 4096 = 0
  bounded : st.2 ≤ 2 ^ 37
  /-- `availableEnd` is not behind a common bound of the ends seen. -/
  le_of_ends : ∀ x, (∀ d ∈ seen, d.physicalEnd ≤ x) → st.2 ≤ x
  last : (st.2 = 0 ∧ ∀ d ∈ seen, isAvailable d.type = false) ∨
    ∃ before d after, seen = before ++ d :: after ∧ isAvailable d.type = true ∧
      (∀ e ∈ after, isAvailable e.type = false) ∧ st.2 = d.physicalEnd
  available_le : ∀ d ∈ seen, isAvailable d.type = true → d.physicalEnd ≤ st.2
  /-- Below `availableEnd` the marks are final. -/
  exact_below : ∀ f, f * 4096 < st.2 →
    (st.1.getBit f = false ↔ ∃ d ∈ seen, isAvailable d.type = true ∧ d.Covers f)
  /-- No mark lies behind everything seen. -/
  clear_above : ∀ f, (∀ d ∈ seen, d.physicalEnd ≤ f * 4096) → st.1.getBit f = false

theorem getBit_markAllocated (mm : BitmapMemoryManager) (start n f : Nat) :
    (mm.markAllocated start n).getBit f = (decide (f ∈ Set.Ico start (start + n)) || mm.getBit f) := by
  rw [BitmapMemoryManager.markAllocated, BitmapMemoryManager.getBit_setBits]
  by_cases h : f ∈ Set.Ico start (start + n) <;> simp [h]

/-- Marking the pages from `lo` up to `hi`, both page-aligned addresses. -/
theorem getBit_markPages (mm : BitmapMemoryManager) {lo hi f : Nat} (hlo : lo % 4096 = 0)
    (hhi : hi % 4096 = 0) (hle : lo ≤ hi) (hbound : hi < 2 ^ 64) :
    (mm.markAllocated (lo / kBytesPerFrame) (sub64 hi lo / kBytesPerFrame)).getBit f =
      (decide (lo ≤ f * 4096 ∧ f * 4096 < hi) || mm.getBit f) := by
  rw [getBit_markAllocated]
  congr 1
  apply decide_eq_decide.mpr
  rw [Set.mem_Ico]
  unfold sub64 kBytesPerFrame
  omega

theorem MarksInv.unavailable {seen rest : List MemoryDescriptor} {d : MemoryDescriptor}
    {mm : BitmapMemoryManager} {availableEnd : Nat} (hwf : WellFormedMap (seen ++ d :: rest))
    (hd : isAvailable d.type = false) (hi : MarksInv seen (mm, availableEnd)) :
    MarksInv (seen ++ [d]) (visitDescriptor (mm, availableEnd) d) := by
  have hmem : d ∈ seen ++ d :: rest := List.mem_append_right _ List.mem_cons_self
  obtain ⟨hend, hbound, hse⟩ := hwf.physicalEnd_bounds hmem
  have hle : availableEnd ≤ d.physicalStart :=
    hi.le_of_ends _ fun e he => hwf.end_le_start he
  have hvisit : visitDescriptor (mm, availableEnd) d =
      (mm.markAllocated (availableEnd / kBytesPerFrame)
        (sub64 d.physicalEnd availableEnd / kBytesPerFrame), availableEnd) := by
    simp only [visitDescriptor, hd, Bool.false_eq_true, if_false]
  have hbit : ∀ f, (visitDescriptor (mm, availableEnd) d).1.getBit f =
      (decide (availableEnd ≤ f * 4096 ∧ f * 4096 < d.physicalEnd) || mm.getBit f) := by
    intro f
    rw [hvisit]
    exact getBit_markPages mm hi.aligned hend (by omega) (by omega)
  rw [show visitDescriptor (mm, availableEnd) d =
    ((visitDescriptor (mm, availableEnd) d).1, availableEnd) by rw [hvisit]]
  refine ⟨hi.aligned, hi.bounded, ?_, ?_, ?_, ?_, ?_⟩
  · exact fun x hx => hi.le_of_ends x fun e he => hx e (List.mem_append_left _ he)
  · rcases hi.last with ⟨hzero, hnone⟩ | ⟨before, e, after, hsplit, he, hafter, hlast⟩
    · refine .inl ⟨hzero, fun e he => ?_⟩
      rcases List.mem_append.mp he with he | he
      · exact hnone e he
      · rw [List.mem_singleton.mp he, hd]
    · refine .inr ⟨before, e, after ++ [d], by rw [hsplit]; simp, he, fun c hc => ?_, hlast⟩
      rcases List.mem_append.mp hc with hc | hc
      · exact hafter c hc
      · rw [List.mem_singleton.mp hc, hd]
  · intro e he hav
    rcases List.mem_append.mp he with he | he
    · exact hi.available_le e he hav
    · rw [List.mem_singleton.mp he, hd] at hav
      cases hav
  · intro f hf
    have hout : ¬ (availableEnd ≤ f * 4096 ∧ f * 4096 < d.physicalEnd) := fun h => by
      have := h.1
      simp only at hf
      omega
    simp only [hbit, hout, decide_false, Bool.false_or, hi.exact_below f hf, List.mem_append,
      List.mem_singleton, or_and_right, exists_or, exists_eq_left, hd, Bool.false_eq_true,
      false_and, or_false]
  · intro f hf
    have hout : ¬ (availableEnd ≤ f * 4096 ∧ f * 4096 < d.physicalEnd) := fun h => by
      have := hf d (List.mem_append_right _ List.mem_cons_self)
      omega
    rw [hbit, hi.clear_above f fun e he => hf e (List.mem_append_left _ he)]
    simp [hout]

theorem MarksInv.available {seen rest : List MemoryDescriptor} {d : MemoryDescriptor}
    {mm : BitmapMemoryManager} {availableEnd : Nat} (hwf : WellFormedMap (seen ++ d :: rest))
    (hd : isAvailable d.type = true) (hi : MarksInv seen (mm, availableEnd)) :
    MarksInv (seen ++ [d]) (visitDescriptor (mm, availableEnd) d) := by
  have hmem : d ∈ seen ++ d :: rest := List.mem_append_right _ List.mem_cons_self
  obtain ⟨hend, hbound, hse⟩ := hwf.physicalEnd_bounds hmem
  have heq := hwf.physicalEnd_eq hmem
  have hstart : d.physicalStart % 4096 = 0 := hwf.aligned d hmem
  have hle : availableEnd ≤ d.physicalStart :=
    hi.le_of_ends _ fun e he => hwf.end_le_start he
  have hbit : ∀ f, (visitDescriptor (mm, availableEnd) d).1.getBit f =
      (decide (availableEnd ≤ f * 4096 ∧ f * 4096 < d.physicalStart) || mm.getBit f) := by
    intro f
    simp only [visitDescriptor, hd, if_true]
    by_cases hhole : availableEnd < d.physicalStart
    · rw [if_pos hhole]
      exact getBit_markPages mm hi.aligned hstart hle (by omega)
    · rw [if_neg hhole]
      have hout : ¬ (availableEnd ≤ f * 4096 ∧ f * 4096 < d.physicalStart) := by omega
      simp [hout]
  rw [show visitDescriptor (mm, availableEnd) d =
    ((visitDescriptor (mm, availableEnd) d).1, d.physicalEnd) by
      simp only [visitDescriptor, hd, if_true]]
  refine ⟨hend, hbound, ?_, ?_, ?_, ?_, ?_⟩
  · exact fun x hx => hx d (List.mem_append_right _ List.mem_cons_self)
  · exact .inr ⟨seen, d, [], by simp, hd, fun e he => absurd he List.not_mem_nil, rfl⟩
  · intro e he hav
    rcases List.mem_append.mp he with he | he
    · exact (hwf.end_le_start he).trans hse
    · rw [List.mem_singleton.mp he]
  · intro f hf
    have hsplit : (∃ e ∈ seen ++ [d], isAvailable e.type = true ∧ e.Covers f) ↔
        (∃ e ∈ seen, isAvailable e.type = true ∧ e.Covers f) ∨ d.Covers f := by
      simp only [List.mem_append, List.mem_singleton, or_and_right, exists_or, exists_eq_left, hd,
        true_and]
    have hcovers : d.Covers f ↔ d.physicalStart ≤ f * 4096 := by
      unfold MemoryDescriptor.Covers kBytesPerFrame
      simp only at hf
      omega
    rw [hsplit, hcovers, hbit]
    by_cases hlow : f * 4096 < availableEnd
    · -- below the old end nothing changes, and `d` does not reach there
      have hout : ¬ (availableEnd ≤ f * 4096 ∧ f * 4096 < d.physicalStart) := by omega
      have hnot : ¬ d.physicalStart ≤ f * 4096 := by omega
      simp only [hout, decide_false, Bool.false_or, hi.exact_below f hlow, hnot, or_false]
    · have hnone : ¬ ∃ e ∈ seen, isAvailable e.type = true ∧ e.Covers f := by
        rintro ⟨e, he, hav, -, hce⟩
        have := hi.available_le e he hav
        unfold kBytesPerFrame at hce
        simp only at this
        omega
      by_cases hhole : f * 4096 < d.physicalStart
      · have hin : availableEnd ≤ f * 4096 ∧ f * 4096 < d.physicalStart := by omega
        have hnot : ¬ d.physicalStart ≤ f * 4096 := by omega
        simp only [hin, hnone, hnot]
        simp
      · -- inside `d`: behind everything seen before, so no earlier mark lies there
        have hout : ¬ (availableEnd ≤ f * 4096 ∧ f * 4096 < d.physicalStart) := by omega
        have hclear := hi.clear_above f fun e he => (hwf.end_le_start he).trans (by omega)
        simp only at hclear
        simp only [hout, hclear, hnone, decide_false, Bool.or_false, false_or, true_iff]
        omega
  · intro f hf
    have hout : ¬ (availableEnd ≤ f * 4096 ∧ f * 4096 < d.physicalStart) := fun h => by
      have := hf d (List.mem_append_right _ List.mem_cons_self)
      omega
    rw [hbit, hi.clear_above f fun e he => hf e (List.mem_append_left _ he)]
    simp [hout]

theorem MarksInv.foldl {seen rest : List MemoryDescriptor} {st : BitmapMemoryManager × Nat}
    (hwf : WellFormedMap (seen ++ rest)) (hi : MarksInv seen st) :
    MarksInv (seen ++ rest) (rest.foldl visitDescriptor st) := by
  induction rest generalizing seen st with
  | nil => simpa using hi
  | cons d rest ih =>
    have hnext : MarksInv (seen ++ [d]) (visitDescriptor st d) := by
      obtain ⟨mm, availableEnd⟩ := st
      cases hd : isAvailable d.type with
      | false => exact hi.unavailable hwf hd
      | true => exact hi.available hwf hd
    rw [List.foldl_cons, show seen ++ d :: rest = (seen ++ [d]) ++ rest by simp]
    exact ih (by simpa using hwf) hnext

theorem MarksInv.start : MarksInv [] (BitmapMemoryManager.init, 0) := by
  refine ⟨rfl, by decide, fun x _ => Nat.zero_le x, .inl ⟨rfl, ?_⟩, ?_, ?_, ?_⟩
  · exact fun d hd => absurd hd List.not_mem_nil
  · exact fun d hd => absurd hd List.not_mem_nil
  · intro f hf
    simp only at hf
    omega
  · intro f _
    simp [BitmapMemoryManager.getBit, BitmapMemoryManager.init]

/-- **The memory map is transcribed exactly.**  For a sorted, page-aligned map below 128 GiB with an
available descriptor, the range ends with the last available descriptor, a frame of the range other
than frame 0 is unmarked exactly when its page lies in an available descriptor, and so every block
that `Allocate` returns lies in available memory. -/
theorem markMemoryMap_exact {mem : Nat → UInt8} {map : MemoryMap}
    (hsize : 0 < map.descriptorSize) (hwf : WellFormedMap (map.descriptors mem))
    (havail : ∃ d ∈ map.descriptors mem, isAvailable d.type = true) :
    ∃ mm, markMemoryMap mem map = some mm ∧ mm.rangeStart = 1 ∧
      (∃ before d after, map.descriptors mem = before ++ d :: after ∧ isAvailable d.type = true ∧
        (∀ e ∈ after, isAvailable e.type = false) ∧
        mm.rangeEnd * kBytesPerFrame = d.physicalEnd) ∧
      (∀ f, 1 ≤ f → f < mm.rangeEnd → (mm.getBit f = false ↔
        ∃ d ∈ map.descriptors mem, isAvailable d.type = true ∧ d.Covers f)) ∧
      ∀ n s, (mm.allocate n).1 = ⟨s, .kSuccess⟩ → ∀ f ∈ Set.Ico s (s + n),
        ∃ d ∈ map.descriptors mem, isAvailable d.type = true ∧ d.Covers f := by
  have hloop : descriptorLoop mem map map.mapSize map.buffer (.init, 0) =
      some ((map.descriptors mem).foldl visitDescriptor (.init, 0)) :=
    descriptorLoop_eq_foldl hsize _ _ _ _ (by omega) (by rw [Nat.add_sub_cancel_left])
  have hinv : MarksInv (map.descriptors mem)
      ((map.descriptors mem).foldl visitDescriptor (.init, 0)) := MarksInv.foldl hwf MarksInv.start
  rcases hst : (map.descriptors mem).foldl visitDescriptor (.init, 0) with ⟨mm, availableEnd⟩
  rw [hst] at hinv hloop
  have halign := hinv.aligned
  have hexact : ∀ f, f < availableEnd / kBytesPerFrame → (mm.getBit f = false ↔
      ∃ d ∈ map.descriptors mem, isAvailable d.type = true ∧ d.Covers f) := by
    intro f hf
    apply hinv.exact_below f
    unfold kBytesPerFrame at hf
    simp only at halign ⊢
    omega
  refine ⟨mm.setMemoryRange 1 (availableEnd / kBytesPerFrame), by rw [markMemoryMap, hloop], rfl,
    ?_, fun f _ hf => hexact f hf, fun n s hs f hf => ?_⟩
  · rcases hinv.last with ⟨-, hnone⟩ | ⟨before, d, after, hsplit, hd, hafter, hlast⟩
    · obtain ⟨d, hd, hav⟩ := havail
      rw [hnone d hd] at hav
      cases hav
    · refine ⟨before, d, after, hsplit, hd, hafter, ?_⟩
      rw [← hlast]
      exact Nat.div_mul_cancel (Nat.dvd_of_mod_eq_zero halign)
  · obtain ⟨-, hblock, -⟩ := BitmapMemoryManager.allocate_success (Prod.ext hs rfl)
    have hfit := hblock.end_le
    exact (hexact f (lt_of_lt_of_le hf.2 hfit)).mp (hblock.unmarked f hf)

/-- Two available regions, pages 0 and 1 and page 3, with a hole at page 2, in a map whose
descriptors are 48 bytes apart. -/
def holeMapBytes : Nat → UInt8 :=
  writeLE (writeLE (writeLE (writeLE (writeLE (fun _ => 0) 0 4 7) 24 8 2) 48 4 7) 56 8 0x3000) 72 8 1

def holeMap : MemoryMap := ⟨0, 96, 48⟩

theorem markMemoryMap_exact_hole :
    ∃ mm, markMemoryMap holeMapBytes holeMap = some mm ∧ mm.rangeStart = 1 ∧
      (mm.rangeEnd = 4 → mm.getBit 2 = true ∧ mm.getBit 3 = false) := by
  have hdescs : holeMap.descriptors holeMapBytes = [⟨7, 0, 2⟩, ⟨7, 0x3000, 1⟩] := by decide
  have hwf : WellFormedMap (holeMap.descriptors holeMapBytes) := by
    rw [hdescs]
    exact ⟨by decide, by decide, by decide⟩
  obtain ⟨mm, hmark, hstart, -, hbits, -⟩ :=
    @markMemoryMap_exact _ holeMap (by decide) hwf (by rw [hdescs]; exact ⟨_, .head _, rfl⟩)
  refine ⟨mm, hmark, hstart, fun hend => ?_⟩
  rw [hdescs] at hbits
  have htwo := hbits 2 (by decide) (by omega)
  have hthree := hbits 3 (by decide) (by omega)
  refine ⟨?_, hthree.mpr ⟨⟨7, 0x3000, 1⟩, .tail _ (.head _), rfl, by decide⟩⟩
  rw [← Bool.not_eq_false, htwo]
  simp [MemoryDescriptor.Covers, MemoryDescriptor.physicalEnd, add64, mul64, kUEFIPageSize,
    kBytesPerFrame]

end MikanSaos
