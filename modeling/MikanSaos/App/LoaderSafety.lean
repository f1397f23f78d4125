import MikanSaos.App.Elf
import MikanSaos.Paging.Frames

/-!
# LoaderSafety — which files `LoadELF` loads safely

A load that runs to its end accesses what `accesses` lists.  `Fits` says in terms of the headers when
all of it is in range; `LoadELF` itself looks at the type and at the address of the first segment only.
-/

open Reasoning

namespace MikanSaos

namespace Elf

/-- The byte addresses of the access are in the file buffer, or in the upper half and in a segment. -/
def AccessInRange (file : Nat → UInt8) (size : Nat) : Access → Prop
  | .read offset n => ∀ k < n, (offset + k) % 2 ^ 64 < size
  | .write vaddr n => ∀ k < n, kUpperHalf ≤ (vaddr + k) % 2 ^ 64 ∧
    ∃ i < ePhnum file, (phdr file i).pType = ptLoad ∧
      (phdr file i).pVaddr ≤ (vaddr + k) % 2 ^ 64 ∧
      (vaddr + k) % 2 ^ 64 < (phdr file i).pVaddr + (phdr file i).pMemsz

def NoWrap (file : Nat → UInt8) : Prop :=
  ∀ i < ePhnum file, (phdr file i).pType = ptLoad →
    (phdr file i).pVaddr + (phdr file i).pMemsz < 2 ^ 64

def segmentAccesses (file : Nat → UInt8) (i : Nat) : List Access :=
  typeAccess file i ::
    if (phdr file i).pType = ptLoad then mapAccesses file i ++ copyAccesses file i else []

def headerAccesses (file : Nat → UInt8) : List Access :=
  .read 16 2 :: .read 32 8 :: .read 56 2 :: firstLoadAccesses file

/-- What a load that is not cut short reads and writes. -/
def accesses (file : Nat → UInt8) : List Access :=
  headerAccesses file ++ (List.range (ePhnum file)).flatMap (segmentAccesses file)

def InRange (file : Nat → UInt8) (size : Nat) : Prop :=
  (∀ a ∈ accesses file, AccessInRange file size a) ∧ NoWrap file

/-- A load that succeeds has stayed in range, and a file that does not allow this is refused before
anything is mapped or written. -/
structure LoaderSafe (file : Nat → UInt8) (size : Nat) (cr3 : Nat) (m : Machine) : Prop where
  loaded : (loadElf file cr3 m).1.error = .kSuccess →
    (∀ a ∈ (loadElf file cr3 m).2.2, AccessInRange file size a) ∧ NoWrap file
  refused : ¬ InRange file size → (loadElf file cr3 m).1.error ≠ .kSuccess ∧
    (loadElf file cr3 m).2.1 = m ∧
    ∀ vaddr n, Access.write vaddr n ∉ (loadElf file cr3 m).2.2

structure SegmentFits (size : Nat) (ph : Elf64Phdr) : Prop where
  filesz_le : ph.pFilesz ≤ ph.pMemsz
  end_lt : ph.pVaddr + ph.pMemsz < 2 ^ 64
  upperHalf : ph.pMemsz = 0 ∨ kUpperHalf ≤ ph.pVaddr
  file : ph.pFilesz = 0 ∨ ph.pOffset + ph.pFilesz ≤ size

/-- The headers are inside the file, and so are the segments that the program headers describe. -/
structure Fits (file : Nat → UInt8) (size : Nat) : Prop where
  header : 58 ≤ size
  types : ∀ i < ePhnum file, phdrOffset file i + 4 ≤ size
  segments : ∀ i < ePhnum file, (phdr file i).pType = ptLoad →
    phdrOffset file i + 48 ≤ size ∧ SegmentFits size (phdr file i)

/-- `LoadELF` refuses the file for its type or its first address. -/
def Refused (file : Nat → UInt8) : Prop :=
  eType file ≠ etExec ∨ getFirstLoadAddress file < kUpperHalf

variable {file : Nat → UInt8} {size i n offset : Nat}

/-! ## Reads -/

theorem field_lt (file : Nat → UInt8) (offset n : Nat) : field file offset n < 256 ^ n :=
  readLE_lt _ _ _

theorem phdrOffset_lt (file : Nat → UInt8) (i : Nat) : phdrOffset file i < 2 ^ 64 :=
  Nat.mod_lt _ (by decide)

/-- A read inside the buffer does not wrap. -/
theorem read_inRange_iff (hsize : size < 2 ^ 32) (hoffset : offset < 2 ^ 64) (hn : 0 < n) :
    AccessInRange file size (.read offset n) ↔ offset + n ≤ size := by
  constructor
  · intro h
    by_contra hgt
    -- the first byte that is not in the buffer
    have hstart := h 0 hn
    have hbad := h (size - offset) (by
      rw [Nat.add_zero, Nat.mod_eq_of_lt hoffset] at hstart
      omega)
    rw [Nat.add_zero, Nat.mod_eq_of_lt hoffset] at hstart
    rw [Nat.add_sub_cancel' (by omega), Nat.mod_eq_of_lt (by omega)] at hbad
    omega
  · intro h k hk
    rw [Nat.mod_eq_of_lt (by omega)]
    omega

theorem firstLoad_spec (file : Nat → UInt8) (n start : Nat) {j : Nat}
    (h : firstLoad file n start = some j) :
    start ≤ j ∧ j < start + n ∧ (phdr file j).pType = ptLoad := by
  induction n generalizing start with
  | zero => cases h
  | succ n ih =>
    rw [firstLoad] at h
    split at h
    · have hrest := ih (start + 1) h
      exact ⟨by omega, by omega, hrest.2.2⟩
    · rename_i htype
      cases h
      exact ⟨le_rfl, by omega, not_not.mp htype⟩

/-- The search for the first segment reads nothing that the loop does not read again. -/
theorem firstLoadAccesses_subset {a : Access} (ha : a ∈ firstLoadAccesses file) :
    ∃ i < ePhnum file, a ∈ segmentAccesses file i := by
  unfold firstLoadAccesses at ha
  split at ha
  · rename_i j hj
    obtain ⟨-, hlt, htype⟩ := firstLoad_spec file _ 0 hj
    rcases List.mem_append.mp ha with ha | ha
    · obtain ⟨i, hi, rfl⟩ := List.mem_map.mp ha
      have := List.mem_range.mp hi
      exact ⟨i, by omega, List.mem_cons_self⟩
    · refine ⟨j, by omega, List.mem_cons_of_mem _ ?_⟩
      rw [if_pos htype, List.mem_singleton.mp ha]
      exact List.mem_append_left _ List.mem_cons_self
  · obtain ⟨i, hi, rfl⟩ := List.mem_map.mp ha
    exact ⟨i, List.mem_range.mp hi, List.mem_cons_self⟩

/-! ## One segment -/

/-- Writes of `memcpy` and `memset` that stay in the upper half fill the segment exactly. -/
theorem segment_writes (hvaddr : (phdr file i).pVaddr < 2 ^ 64) (hfilesz : (phdr file i).pFilesz < 2 ^ 64)
    (hmemsz : (phdr file i).pMemsz < 2 ^ 64)
    (hcopy : AccessInRange file size (.write (phdr file i).pVaddr (phdr file i).pFilesz))
    (hzero : AccessInRange file size (.write (add64 (phdr file i).pVaddr (phdr file i).pFilesz)
      (sub64 (phdr file i).pMemsz (phdr file i).pFilesz))) :
    (phdr file i).pFilesz ≤ (phdr file i).pMemsz ∧
      ((phdr file i).pMemsz = 0 ∨ kUpperHalf ≤ (phdr file i).pVaddr) := by
  generalize (phdr file i).pVaddr = vaddr at *
  generalize (phdr file i).pFilesz = filesz at *
  generalize (phdr file i).pMemsz = memsz at *
  have hle : filesz ≤ memsz := by
    by_contra hgt
    -- the two writes cover all of memory, address 0 too
    have hlow : ¬ kUpperHalf ≤ 0 := by decide
    by_cases hfirst : (2 ^ 64 - vaddr) % 2 ^ 64 < filesz
    · apply hlow
      have hbad := (hcopy _ hfirst).1
      rwa [show (vaddr + (2 ^ 64 - vaddr) % 2 ^ 64) % 2 ^ 64 = 0 by omega] at hbad
    · apply hlow
      have hbad := (hzero ((2 ^ 64 - vaddr) % 2 ^ 64 - filesz) (by unfold sub64; omega)).1
      rwa [show (add64 vaddr filesz + ((2 ^ 64 - vaddr) % 2 ^ 64 - filesz)) % 2 ^ 64 = 0 by
        unfold add64; omega] at hbad
  refine ⟨hle, ?_⟩
  by_cases hempty : memsz = 0
  · exact .inl hempty
  · apply Or.inr
    by_cases hcopied : filesz = 0
    · have hstart := (hzero 0 (by unfold sub64; omega)).1
      rwa [show (add64 vaddr filesz + 0) % 2 ^ 64 = vaddr by unfold add64; omega] at hstart
    · have hstart := (hcopy 0 (by omega)).1
      rwa [Nat.add_zero, Nat.mod_eq_of_lt hvaddr] at hstart

theorem segmentAccesses_inRange_iff (hsize : size < 2 ^ 32) (hi : i < ePhnum file)
    (hwrap : (phdr file i).pType = ptLoad →
      (phdr file i).pVaddr + (phdr file i).pMemsz < 2 ^ 64) :
    (∀ a ∈ segmentAccesses file i, AccessInRange file size a) ↔
      phdrOffset file i + 4 ≤ size ∧ ((phdr file i).pType = ptLoad →
        phdrOffset file i + 48 ≤ size ∧ SegmentFits size (phdr file i)) := by
  have hoffset := phdrOffset_lt file i
  have hvaddr : (phdr file i).pVaddr < 2 ^ 64 := field_lt file _ 8
  have hfilesz : (phdr file i).pFilesz < 2 ^ 64 := field_lt file _ 8
  have hmemsz : (phdr file i).pMemsz < 2 ^ 64 := field_lt file _ 8
  have hpOffset : (phdr file i).pOffset < 2 ^ 64 := field_lt file _ 8
  unfold segmentAccesses mapAccesses copyAccesses typeAccess
  rw [List.forall_mem_cons, read_inRange_iff hsize hoffset (by decide)]
  refine and_congr_right fun htype => ?_
  by_cases hload : (phdr file i).pType = ptLoad
  · rw [if_pos hload]
    simp only [List.forall_mem_append, List.forall_mem_cons, hload, true_imp_iff]
    rw [read_inRange_iff hsize (by omega) (by decide), read_inRange_iff hsize (by omega) (by decide),
      read_inRange_iff hsize (by omega) (by decide), read_inRange_iff hsize (by omega) (by decide)]
    constructor
    · rintro ⟨⟨-, hmap, -⟩, -, -, hread, hcopy, hzero, -⟩
      obtain ⟨hle, hupper⟩ := segment_writes hvaddr hfilesz hmemsz hcopy hzero
      refine ⟨by omega, hle, hwrap hload, hupper, ?_⟩
      by_cases hempty : (phdr file i).pFilesz = 0
      · exact .inl hempty
      · exact .inr ((read_inRange_iff hsize hpOffset (by omega)).mp hread)
    · rintro ⟨hphdr, hle, hend, hupper, hfile⟩
      have hwrite : ∀ k, k < (phdr file i).pMemsz →
          kUpperHalf ≤ (phdr file i).pVaddr + k ∧ ∃ j < ePhnum file, (phdr file j).pType = ptLoad ∧
            (phdr file j).pVaddr ≤ (phdr file i).pVaddr + k ∧
            (phdr file i).pVaddr + k < (phdr file j).pVaddr + (phdr file j).pMemsz := fun k hk =>
        ⟨by omega, i, hi, hload, by omega, by omega⟩
      refine ⟨⟨by omega, by omega, by simp⟩, by omega, by omega, ?_, ?_, ?_, by simp⟩
      · rcases hfile with hempty | hfile
        · intro k hk
          omega
        · intro k hk
          rw [Nat.mod_eq_of_lt (by omega)]
          omega
      · intro k hk
        rw [Nat.mod_eq_of_lt (by omega)]
        exact hwrite k (by omega)
      · intro k hk
        have hk' : k < (phdr file i).pMemsz - (phdr file i).pFilesz := by
          unfold sub64 at hk
          omega
        rw [show (add64 (phdr file i).pVaddr (phdr file i).pFilesz + k) % 2 ^ 64 =
          (phdr file i).pVaddr + ((phdr file i).pFilesz + k) by unfold add64; omega]
        exact hwrite _ (by omega)
  · rw [if_neg hload]
    simp only [hload, false_imp_iff, iff_true]
    exact fun _ ha => absurd ha List.not_mem_nil

/-- In terms of the headers: all accesses are in range. -/
theorem inRange_iff_fits (hsize : size < 2 ^ 32) : InRange file size ↔ Fits file size := by
  unfold InRange accesses headerAccesses
  have hsegment := fun i (hi : i < ePhnum file) => segmentAccesses_inRange_iff hsize hi
  constructor
  · rintro ⟨hall, hwrap⟩
    have hin : ∀ i < ePhnum file, ∀ a ∈ segmentAccesses file i, AccessInRange file size a :=
      fun i hi a ha => hall a (List.mem_append_right _
        (List.mem_flatMap.mpr ⟨i, List.mem_range.mpr hi, ha⟩))
    refine ⟨?_, fun i hi => ((hsegment i hi (hwrap i hi)).mp (hin i hi)).1,
      fun i hi => ((hsegment i hi (hwrap i hi)).mp (hin i hi)).2⟩
    have hlast := hall (.read 56 2) (List.mem_append_left _ (by simp))
    exact (read_inRange_iff hsize (by decide) (by decide)).mp hlast
  · rintro ⟨hheader, htypes, hsegments⟩
    have hwrap : NoWrap file := fun i hi htype => (hsegments i hi htype).2.end_lt
    have hin : ∀ i < ePhnum file, ∀ a ∈ segmentAccesses file i, AccessInRange file size a :=
      fun i hi => (hsegment i hi (hwrap i hi)).mpr ⟨htypes i hi, hsegments i hi⟩
    refine ⟨fun a ha => ?_, hwrap⟩
    rcases List.mem_append.mp ha with ha | ha
    · have hread : ∀ o n, 0 < n → o + n ≤ 58 → AccessInRange file size (.read o n) :=
        fun o n hn ho => (read_inRange_iff hsize (by omega) hn).mpr (by omega)
      simp only [List.mem_cons] at ha
      rcases ha with rfl | rfl | rfl | ha
      · exact hread 16 2 (by decide) (by decide)
      · exact hread 32 8 (by decide) (by decide)
      · exact hread 56 2 (by decide) (by decide)
      · obtain ⟨i, hi, ha⟩ := firstLoadAccesses_subset ha
        exact hin i hi a ha
    · obtain ⟨i, hi, ha⟩ := List.mem_flatMap.mp ha
      exact hin i (List.mem_range.mp hi) a ha

/-! ## The loop over the program headers -/

theorem segmentAccesses_load (h : (phdr file i).pType = ptLoad) :
    segmentAccesses file i = typeAccess file i :: (mapAccesses file i ++ copyAccesses file i) := by
  unfold segmentAccesses
  rw [if_pos h]

theorem segmentAccesses_skip (h : (phdr file i).pType ≠ ptLoad) :
    segmentAccesses file i = [typeAccess file i] := by
  unfold segmentAccesses
  rw [if_neg h]

/-- A loop that succeeds has made the accesses of all its segments. -/
theorem copyLoadSegments_log {cr3 lastAddr : Nat} {m : Machine} (hn : n ≤ ePhnum file)
    (h : (copyLoadSegments file cr3 n lastAddr m).1.error = .kSuccess) :
    (copyLoadSegments file cr3 n lastAddr m).2.2 =
      (List.range' (ePhnum file - n) n).flatMap (segmentAccesses file) := by
  induction n generalizing lastAddr m with
  | zero => rfl
  | succ n ih =>
    have hnext : ePhnum file - (n + 1) + 1 = ePhnum file - n := by omega
    rw [List.range'_succ, List.flatMap_cons, hnext]
    rw [copyLoadSegments] at h ⊢
    dsimp only at h ⊢
    split at h
    · rename_i htype
      rw [if_pos htype, segmentAccesses_skip htype, ih (by omega) h]
      rfl
    · rename_i htype
      rw [if_neg htype, segmentAccesses_load (not_not.mp htype)]
      split at h
      · rename_i herr
        exact absurd h herr
      · rename_i herr
        rw [if_neg herr, ih (by omega) h]

/-- A segment is mapped, and then bytes change only. -/
theorem loadSegment_eq (file : Nat → UInt8) (cr3 : Nat) (ph : Elf64Phdr) (m : Machine) :
    ∃ bytes, loadSegment file cr3 ph m =
      ((m.setupPageMaps cr3 ph.pVaddr (add64 ph.pMemsz 4095 / 4096) false).1,
        { (m.setupPageMaps cr3 ph.pVaddr (add64 ph.pMemsz 4095 / 4096) false).2 with
          bytes := bytes }) := by
  unfold loadSegment
  dsimp only
  generalize m.setupPageMaps cr3 ph.pVaddr (add64 ph.pMemsz 4095 / 4096) false = r
  obtain ⟨err, m₁⟩ := r
  split
  · exact ⟨m₁.bytes, rfl⟩
  · rename_i herr
    obtain rfl : err = .kSuccess := not_not.mp herr
    obtain ⟨bytes, heq⟩ := Machine.storeBytes_bytes m₁ cr3 ph.pVaddr
      (fun k => file ((ph.pOffset + k) % 2 ^ 64)) ph.pFilesz
    obtain ⟨bytes', heq'⟩ := Machine.storeBytes_bytes { m₁ with bytes := bytes } cr3
      (add64 ph.pVaddr ph.pFilesz) (fun _ => 0) (sub64 ph.pMemsz ph.pFilesz)
    rw [heq, heq']
    exact ⟨bytes', rfl⟩

theorem loadSegment_marked (file : Nat → UInt8) (cr3 : Nat) (ph : Elf64Phdr) (m : Machine) :
    m.mm.marked ⊆ (loadSegment file cr3 ph m).2.mm.marked := by
  obtain ⟨bytes, heq⟩ := loadSegment_eq file cr3 ph m
  rw [heq]
  exact Machine.coversSetup_marked.setupPageMap false 4 m cr3 ph.pVaddr _

theorem copyLoadSegments_marked (file : Nat → UInt8) (cr3 n lastAddr : Nat) (m : Machine) :
    m.mm.marked ⊆ (copyLoadSegments file cr3 n lastAddr m).2.1.mm.marked := by
  induction n generalizing lastAddr m with
  | zero => exact subset_rfl
  | succ n ih =>
    rw [copyLoadSegments]
    dsimp only
    split
    · exact ih lastAddr m
    · have hsegment := loadSegment_marked file cr3 (phdr file (ePhnum file - (n + 1))) m
      split
      · exact hsegment
      · exact subset_trans hsegment (ih _ _)

/-- A segment takes a frame of an empty page map, or changes bytes only. -/
theorem loadSegment_takes {cr3 : Nat} {m : Machine} (file : Nat → UInt8) (ph : Elf64Phdr)
    (hempty : ∀ i, (m.tables cr3 i).present = false) (hfree : ∃ q, m.mm.FreeBlock 1 q) :
    (∃ g, m.mm.getBit g = false ∧ (loadSegment file cr3 ph m).2.mm.getBit g = true) ∨
      ∃ bytes, loadSegment file cr3 ph m = (.kSuccess, { m with bytes := bytes }) := by
  obtain ⟨bytes, heq⟩ := loadSegment_eq file cr3 ph m
  by_cases hpages : 0 < add64 ph.pMemsz 4095 / 4096
  · apply Or.inl
    obtain ⟨g, hg, hmark⟩ := Machine.setupPageMap_takes false 3 hpages hfree (hempty _)
    refine ⟨g, hg, ?_⟩
    rw [heq]
    exact hmark
  · have hnone : m.setupPageMaps cr3 ph.pVaddr (add64 ph.pMemsz 4095 / 4096) false =
        (.kSuccess, m) := by
      unfold Machine.setupPageMaps Machine.setupPageMap
      rw [Machine.setupEntries, if_neg hpages]
    rw [hnone] at heq
    exact .inr ⟨bytes, heq⟩

/-- On an empty page map, a loop that fails has taken a frame before. -/
theorem copyLoadSegments_takes {cr3 lastAddr : Nat} {m : Machine}
    (hempty : ∀ i, (m.tables cr3 i).present = false) (hfree : ∃ q, m.mm.FreeBlock 1 q)
    (h : (copyLoadSegments file cr3 n lastAddr m).1.error ≠ .kSuccess) :
    ∃ g, m.mm.getBit g = false ∧
      (copyLoadSegments file cr3 n lastAddr m).2.1.mm.getBit g = true := by
  induction n generalizing lastAddr m with
  | zero => exact absurd rfl h
  | succ n ih =>
    rw [copyLoadSegments] at h ⊢
    dsimp only at h ⊢
    split
    · rename_i htype
      rw [if_pos htype] at h
      exact ih hempty hfree h
    · rename_i htype
      rw [if_neg htype] at h
      have hsegment := loadSegment_takes file (phdr file (ePhnum file - (n + 1))) hempty hfree
      generalize loadSegment file cr3 (phdr file (ePhnum file - (n + 1))) m = r at h hsegment ⊢
      rcases hsegment with ⟨g, hg, hmark⟩ | ⟨bytes, rfl⟩
      · refine ⟨g, hg, ?_⟩
        split
        · exact hmark
        · exact copyLoadSegments_marked file cr3 n _ r.2 hmark
      · rw [if_neg (not_not.mpr rfl)] at h ⊢
        exact ih (m := { m with bytes := bytes }) hempty hfree h

/-! ## `LoadELF` -/

/-- A file that is refused is not touched, apart from its headers. -/
theorem loadElf_refused (h : Refused file) (cr3 : Nat) (m : Machine) :
    (loadElf file cr3 m).1.error ≠ .kSuccess ∧ (loadElf file cr3 m).2.1 = m ∧
      ∀ vaddr n, Access.write vaddr n ∉ (loadElf file cr3 m).2.2 := by
  unfold loadElf
  by_cases htype : eType file ≠ etExec
  · rw [if_pos htype]
    exact ⟨nofun, rfl, by simp⟩
  · rw [if_neg htype]
    dsimp only
    rw [if_pos (h.resolve_left htype)]
    refine ⟨nofun, rfl, fun vaddr n hmem => ?_⟩
    simp only [List.mem_cons, reduceCtorEq, false_or] at hmem
    unfold firstLoadAccesses typeAccess at hmem
    split at hmem
    · simp at hmem
    · simp at hmem

theorem loadElf_log (h : ¬ Refused file) (cr3 : Nat) (m : Machine) :
    (loadElf file cr3 m).1 = (copyLoadSegments file cr3 (ePhnum file) 0 m).1 ∧
    (loadElf file cr3 m).2.1 = (copyLoadSegments file cr3 (ePhnum file) 0 m).2.1 ∧
    ((loadElf file cr3 m).1.error = .kSuccess → (loadElf file cr3 m).2.2 = accesses file) := by
  unfold loadElf
  rw [if_neg fun htype => h (.inl htype)]
  dsimp only
  rw [if_neg fun haddr => h (.inr haddr)]
  refine ⟨rfl, rfl, fun hsuccess => ?_⟩
  have hlog := copyLoadSegments_log le_rfl hsuccess
  dsimp only at hlog ⊢
  rw [hlog, Nat.sub_self, ← List.range_eq_range']
  rfl

/-- A machine with empty page maps and free frames. -/
def emptyMachine : Machine := ⟨BitmapMemoryManager.init, fun _ _ => {}, fun _ _ => 0, []⟩

theorem emptyMachine_free : ∃ q, emptyMachine.mm.FreeBlock 1 q :=
  ⟨0, le_rfl, by decide, by decide, fun f _ => by
    show BitmapMemoryManager.init.getBit f = false
    rw [BitmapMemoryManager.getBit_eq_get]
    simp [BitmapMemoryManager.init, WordBitmap.get]⟩

/-- `LoadELF` is safe for a file exactly when it refuses the file for the reasons it looks at, or the
headers and the segments fit. -/
theorem loaderSafe_iff (hsize : size < 2 ^ 32) :
    (∀ cr3 m, LoaderSafe file size cr3 m) ↔ Refused file ∨ Fits file size := by
  constructor
  · intro hsafe
    by_contra hnot
    have hrefused : ¬ Refused file := fun h => hnot (.inl h)
    have hrange : ¬ InRange file size := fun h => hnot (.inr ((inRange_iff_fits hsize).mp h))
    -- the file must be refused before a frame is taken, also on an empty machine
    obtain ⟨herr, hsame, -⟩ := (hsafe 0 emptyMachine).refused hrange
    obtain ⟨hresult, hmachine, -⟩ := loadElf_log hrefused 0 emptyMachine
    rw [hresult] at herr
    rw [hmachine] at hsame
    obtain ⟨g, hg, hmark⟩ := copyLoadSegments_takes (fun _ => rfl) emptyMachine_free herr
    rw [hsame, hg] at hmark
    cases hmark
  · intro h cr3 m
    by_cases hrefused : Refused file
    · have hr := loadElf_refused hrefused cr3 m
      exact ⟨fun hsuccess => absurd hsuccess hr.1, fun _ => hr⟩
    · have hrange := (inRange_iff_fits hsize).mpr (h.resolve_left hrefused)
      refine ⟨fun hsuccess => ?_, fun hnot => absurd hrange hnot⟩
      rw [(loadElf_log hrefused cr3 m).2.2 hsuccess]
      exact hrange

/-! ## Two files -/

def writePhdr (file : Nat → UInt8) (offset : Nat) (ph : Elf64Phdr) : Nat → UInt8 :=
  writeLE (writeLE (writeLE (writeLE (writeLE file offset 4 ph.pType) (offset + 8) 8 ph.pOffset)
    (offset + 16) 8 ph.pVaddr) (offset + 32) 8 ph.pFilesz) (offset + 40) 8 ph.pMemsz

/-- An executable that consists of its header and of the program headers behind it. -/
def elfFile (phdrs : List Elf64Phdr) : Nat → UInt8 :=
  phdrs.zipIdx.foldl (fun file (ph, i) => writePhdr file (64 + kPhdrBytes * i) ph)
    (writeLE (writeLE (writeLE (fun _ => 0) 16 2 etExec) 32 8 64) 56 2 phdrs.length)

def oneSegment : List Elf64Phdr := [⟨ptLoad, 0, kUpperHalf, 0, 1⟩]

/-- The machine after `SetupIdentityPageTable`, with frames to hand out: the lower half is mapped by large
pages. -/
def identityMachine : Machine where
  mm := BitmapMemoryManager.init.setMemoryRange 1024 2048
  tables := fun table i =>
    if table = 1 then if i = 0 then { present := true, writable := true, addr := 2 } else {}
    else if table = 2 then
      if i < 64 then { present := true, writable := true, addr := 3 + i } else {}
    else if 3 ≤ table ∧ table < 67 then
      { present := true, writable := true, hugePage := true, addr := 512 * (512 * (table - 3) + i) }
    else {}
  bytes := fun _ _ => 0
  doubleFreed := []

theorem loaderSafe_iff_one_segment :
    LoaderSafe (elfFile oneSegment) 120 1 identityMachine := by
  apply (loaderSafe_iff (by decide)).mpr
  apply Or.inr
  refine ⟨by decide, by decide, fun i hi _ => ?_⟩
  obtain rfl : i = 0 := by
    have hnum : ePhnum (elfFile oneSegment) = 1 := by decide
    omega
  exact ⟨by decide, by decide, by decide, by decide, by decide⟩

def lowerHalfSegment : List Elf64Phdr := oneSegment ++ [⟨ptLoad, 0, 0x200000, 0, 1⟩]

/-- Only the first segment is looked at: the second one is loaded into the lower half. -/
theorem loadElf_writes_lower_half :
    (loadElf (elfFile lowerHalfSegment) 1 identityMachine).1.error = .kSuccess ∧
      .write 0x200000 1 ∈ (loadElf (elfFile lowerHalfSegment) 1 identityMachine).2.2 ∧
      ¬ LoaderSafe (elfFile lowerHalfSegment) 176 1 identityMachine := by
  have hsuccess : (loadElf (elfFile lowerHalfSegment) 1 identityMachine).1.error = .kSuccess := by
    decide +kernel
  have hwrite : .write 0x200000 1 ∈ (loadElf (elfFile lowerHalfSegment) 1 identityMachine).2.2 := by
    decide +kernel
  refine ⟨hsuccess, hwrite, fun hsafe => ?_⟩
  have hlow := ((hsafe.loaded hsuccess).1 _ hwrite 0 (by decide)).1
  exact absurd hlow (by decide)

end Elf

end MikanSaos
