import MikanSaos.App.LoaderSafety
import MikanSaos.Paging.PageBytes

/-!
# SegmentPages — whether the pages of all segments are there

`CopyLoadSegments` counts the pages of a segment from its size alone.  A segment that does not start at the
beginning of a page may need one page more, which is there only if an earlier segment has it.
-/

namespace MikanSaos

open Machine

namespace Elf

variable {file : Nat → UInt8} {size cr3 i j n lastAddr v : Nat} {m m₁ : Machine} {ph : Elf64Phdr}

def IsLoad (file : Nat → UInt8) (i : Nat) : Prop := i < ePhnum file ∧ (phdr file i).pType = ptLoad

namespace Elf64Phdr

/-- The address belongs to the segment. -/
def Contains (ph : Elf64Phdr) (v : Nat) : Prop := ph.pVaddr ≤ v ∧ v < ph.pVaddr + ph.pMemsz

/-- The address is in one of as many pages as the size of the segment takes, from its first page on. -/
def InItsPages (ph : Elf64Phdr) (v : Nat) : Prop := InPages ph.pVaddr ((ph.pMemsz + 4095) / 4096) v

/-- What the file says is at the address. -/
def byteAt (file : Nat → UInt8) (ph : Elf64Phdr) (v : Nat) : UInt8 :=
  if v - ph.pVaddr < ph.pFilesz then file (ph.pOffset + (v - ph.pVaddr)) else 0

end Elf64Phdr

/-- The segments are in the upper half and in the file, and no two of them have a byte in common. -/
structure SoundSegments (file : Nat → UInt8) (size : Nat) : Prop where
  fits : ∀ i, IsLoad file i → SegmentFits size (phdr file i)
  apart : ∀ i j, IsLoad file i → IsLoad file j → i ≠ j → ∀ v, (phdr file i).Contains v → ¬ (phdr file j).Contains v

/-- The machine before header `i`, as long as there is no error. -/
def beforeHeader (file : Nat → UInt8) (cr3 : Nat) (m : Machine) : Nat → Machine
  | 0 => m
  | i + 1 =>
    if (phdr file i).pType ≠ ptLoad then beforeHeader file cr3 m i
    else (loadSegment file cr3 (phdr file i) (beforeHeader file cr3 m i)).2

/-- The pages of the segment are set up and can be filled. -/
def setupSegment (file : Nat → UInt8) (cr3 : Nat) (m : Machine) (i : Nat) : Error × Machine :=
  (beforeHeader file cr3 m i).setupPageMaps cr3 (phdr file i).pVaddr
    (add64 (phdr file i).pMemsz 4095 / 4096) false

/-- `CopyLoadSegments` has pages for all bytes of a segment when it copies them, they are as the file says at the
end, and the returned address is the end of the last segment. -/
structure SegmentsMapped (file : Nat → UInt8) (cr3 : Nat) (m : Machine) : Prop where
  mapped : ∀ i, IsLoad file i → ∀ v, (phdr file i).Contains v → (setupSegment file cr3 m i).2.walk cr3 v ≠ none
  bytes : ∀ i, IsLoad file i → ∀ v, (phdr file i).Contains v →
    (copyLoadSegments file cr3 (ePhnum file) 0 m).2.1.loadByte cr3 v = some ((phdr file i).byteAt file v)
  ends : ∀ i, IsLoad file i →
    (phdr file i).pVaddr + (phdr file i).pMemsz ≤ (copyLoadSegments file cr3 (ePhnum file) 0 m).1.value
  last : (copyLoadSegments file cr3 (ePhnum file) 0 m).1.value = 0 ∧ (∀ i, ¬ IsLoad file i) ∨
    ∃ i, IsLoad file i ∧
      (copyLoadSegments file cr3 (ePhnum file) 0 m).1.value = (phdr file i).pVaddr + (phdr file i).pMemsz

/-- Each byte of a segment is in a page of the segment or of one before it. -/
def PagesCovered (file : Nat → UInt8) : Prop :=
  ∀ i, IsLoad file i → ∀ v, (phdr file i).Contains v → ∃ j ≤ i, IsLoad file j ∧ (phdr file j).InItsPages v

/-! ## One segment -/

theorem SegmentFits.upper (h : SegmentFits size ph) (hv : ph.Contains v) : Upper v := by
  obtain ⟨hlo, hhi⟩ := hv
  have hend := h.end_lt
  have hupper := h.upperHalf
  exact ⟨by omega, by omega⟩

/-- The pages of a segment are set up. -/
theorem SegmentFits.setup (h : SegmentFits size ph) (htree : PageTree m cr3)
    (hrun : m.setupPageMaps cr3 ph.pVaddr (add64 ph.pMemsz 4095 / 4096) false = (.kSuccess, m₁)) :
    (∃ lo hi, Sets cr3 lo hi false m m₁) ∧
      ∀ v, Upper v → (m₁.walk cr3 v ≠ none ↔ m.walk cr3 v ≠ none ∨ ph.InItsPages v) := by
  have hend := h.end_lt
  by_cases hzero : ph.pMemsz = 0
  · -- without pages the address does not matter
    rw [hzero] at hrun
    obtain rfl : m = m₁ := congrArg Prod.snd hrun
    refine ⟨⟨0, 0, .refl ..⟩, fun v _ => (or_iff_left ?_).symm⟩
    intro hin
    unfold Elf64Phdr.InItsPages InPages at hin
    omega
  · have hvaddr := h.upperHalf.resolve_left hzero
    have hupper : Upper ph.pVaddr := ⟨hvaddr, by omega⟩
    have hnum : add64 ph.pMemsz 4095 = ph.pMemsz + 4095 := by
      unfold add64
      unfold kUpperHalf at hvaddr
      omega
    rw [hnum] at hrun
    have hn : ph.pVaddr / 4096 * 4096 + 4096 * ((ph.pMemsz + 4095) / 4096) ≤ 2 ^ 64 := by omega
    exact ⟨⟨_, _, (htree.setupPageMaps_tree hupper hn hrun).1⟩,
      fun v hv => htree.setupPageMaps_walk hupper hn hrun rfl hv⟩

theorem loadSegment_success (hok : (loadSegment file cr3 ph m).1 = .kSuccess) :
    ∃ m₁, m.setupPageMaps cr3 ph.pVaddr (add64 ph.pMemsz 4095 / 4096) false = (.kSuccess, m₁) ∧
      (loadSegment file cr3 ph m).2 =
        (m₁.storeBytes cr3 ph.pVaddr (fun k => file ((ph.pOffset + k) % 2 ^ 64)) ph.pFilesz).storeBytes cr3
          (add64 ph.pVaddr ph.pFilesz) (fun _ => 0) (sub64 ph.pMemsz ph.pFilesz) := by
  unfold loadSegment at hok ⊢
  dsimp only at hok ⊢
  generalize m.setupPageMaps cr3 ph.pVaddr (add64 ph.pMemsz 4095 / 4096) false = run at hok ⊢
  obtain ⟨err, m₁⟩ := run
  dsimp only at hok ⊢
  split at hok
  · rename_i herr
    exact absurd hok herr
  · rename_i herr
    rw [if_neg herr]
    exact ⟨m₁, by rw [not_not.mp herr], rfl⟩

/-- The bytes of a segment are copied, where there are pages. -/
theorem SegmentFits.load (h : SegmentFits size ph) (hsize : size ≤ 2 ^ 64) (htree : PrivateTree m cr3)
    (hok : (loadSegment file cr3 ph m).1 = .kSuccess) :
    ∃ m₁, m.setupPageMaps cr3 ph.pVaddr (add64 ph.pMemsz 4095 / 4096) false = (.kSuccess, m₁) ∧
      PrivateTree (loadSegment file cr3 ph m).2 cr3 ∧
      (∀ v, (loadSegment file cr3 ph m).2.walk cr3 v = m₁.walk cr3 v) ∧
      (∀ v, ph.Contains v → m₁.walk cr3 v ≠ none →
        (loadSegment file cr3 ph m).2.loadByte cr3 v = some (ph.byteAt file v)) ∧
      ∀ v, Upper v → ¬ ph.Contains v → (loadSegment file cr3 ph m).2.loadByte cr3 v = m₁.loadByte cr3 v := by
  have hend := h.end_lt
  have hle := h.filesz_le
  obtain ⟨m₁, hrun, hload⟩ := loadSegment_success hok
  rw [hload]
  obtain ⟨⟨_, _, hsets⟩, -⟩ := h.setup htree.toPageTree hrun
  have htree₁ := htree.sets hsets
  refine ⟨m₁, hrun, ?_⟩
  -- neither the end of the file's part nor the rest wraps
  have hdst : add64 ph.pVaddr ph.pFilesz = ph.pVaddr + ph.pFilesz := by
    unfold add64
    omega
  have hrest : sub64 ph.pMemsz ph.pFilesz = ph.pMemsz - ph.pFilesz := by
    unfold sub64
    omega
  rw [hdst, hrest]
  obtain ⟨bytes, hcopy⟩ := m₁.storeBytes_bytes cr3 ph.pVaddr (fun k => file ((ph.pOffset + k) % 2 ^ 64)) ph.pFilesz
  obtain ⟨bytes', hzero⟩ := (m₁.storeBytes cr3 ph.pVaddr (fun k => file ((ph.pOffset + k) % 2 ^ 64))
    ph.pFilesz).storeBytes_bytes cr3 (ph.pVaddr + ph.pFilesz) (fun _ => 0) (ph.pMemsz - ph.pFilesz)
  have htree₂ := htree₁.of_bytes bytes
  rw [← hcopy] at htree₂
  have hwalk₂ (v : Nat) : (m₁.storeBytes cr3 ph.pVaddr (fun k => file ((ph.pOffset + k) % 2 ^ 64))
      ph.pFilesz).walk cr3 v = m₁.walk cr3 v := by
    rw [hcopy]
    rfl
  refine ⟨?_, fun v => ?_, fun v hin hthere => ?_, fun v hv hout => ?_⟩
  · rw [hzero]
    exact htree₂.of_bytes bytes'
  · rw [hzero]
    exact hwalk₂ v
  · have hv := h.upper hin
    have hvaddr := h.upperHalf
    unfold Elf64Phdr.Contains at hin
    rw [htree₂.loadByte_storeBytes _ _ (by omega) (by omega) hv, hwalk₂,
      htree₁.loadByte_storeBytes _ _ (by omega) (by omega) hv, Elf64Phdr.byteAt]
    have hfile := h.file
    -- from the file, or behind its part
    by_cases hlt : v - ph.pVaddr < ph.pFilesz
    · rw [if_neg (by omega), if_pos ⟨hin.1, by omega, hthere⟩, if_pos hlt, Nat.mod_eq_of_lt (by omega)]
    · rw [if_pos ⟨by omega, by omega, hthere⟩, if_neg hlt]
  · unfold Elf64Phdr.Contains at hout
    by_cases hempty : ph.pMemsz = 0
    · rw [show ph.pMemsz - ph.pFilesz = 0 by omega, show ph.pFilesz = 0 by omega]
      rfl
    · have hvaddr := h.upperHalf.resolve_left hempty
      rw [htree₂.loadByte_storeBytes _ _ (by omega) (by omega) hv,
        htree₁.loadByte_storeBytes _ _ (by omega) (by omega) hv, if_neg (by omega), if_neg (by omega)]

/-! ## All segments -/

theorem beforeHeader_load (file : Nat → UInt8) (cr3 : Nat) (m : Machine) (h : IsLoad file i) :
    beforeHeader file cr3 m (i + 1) = (loadSegment file cr3 (phdr file i) (beforeHeader file cr3 m i)).2 :=
  if_neg (not_not.mpr h.2)

theorem beforeHeader_skip (file : Nat → UInt8) (cr3 : Nat) (m : Machine) (h : (phdr file i).pType ≠ ptLoad) :
    beforeHeader file cr3 m (i + 1) = beforeHeader file cr3 m i := if_pos h

/-- A run without an error loads all segments from header `ePhnum file - n` on. -/
structure LoadsFrom (file : Nat → UInt8) (cr3 : Nat) (m : Machine) (n lastAddr : Nat) (value : Nat) (m' : Machine) :
    Prop where
  machine : m' = beforeHeader file cr3 m (ePhnum file)
  loads : ∀ i, ePhnum file - n ≤ i → IsLoad file i →
    (loadSegment file cr3 (phdr file i) (beforeHeader file cr3 m i)).1 = .kSuccess
  lastAddr_le : lastAddr ≤ value
  ends : ∀ i, ePhnum file - n ≤ i → IsLoad file i → add64 (phdr file i).pVaddr (phdr file i).pMemsz ≤ value
  last : value = lastAddr ∨
    ∃ i, IsLoad file i ∧ value = add64 (phdr file i).pVaddr (phdr file i).pMemsz

theorem copyLoadSegments_ok (hn : n ≤ ePhnum file) (hm : m₁ = beforeHeader file cr3 m (ePhnum file - n))
    (hok : (copyLoadSegments file cr3 n lastAddr m₁).1.error = .kSuccess) :
    LoadsFrom file cr3 m n lastAddr (copyLoadSegments file cr3 n lastAddr m₁).1.value
      (copyLoadSegments file cr3 n lastAddr m₁).2.1 := by
  induction n generalizing lastAddr m₁ with
  | zero =>
    subst hm
    have hnone {i : Nat} (hi : ePhnum file - 0 ≤ i) (hload : IsLoad file i) : False := by
      have hlt := hload.1
      omega
    exact ⟨rfl, fun i hi hload => (hnone hi hload).elim, le_rfl, fun i hi hload => (hnone hi hload).elim, .inl rfl⟩
  | succ n ih =>
    subst hm
    have hnext : ePhnum file - (n + 1) + 1 = ePhnum file - n := by omega
    rw [copyLoadSegments] at hok ⊢
    dsimp only at hok ⊢
    by_cases htype : (phdr file (ePhnum file - (n + 1))).pType ≠ ptLoad
    · -- a header of another type is passed over
      rw [if_pos htype] at hok ⊢
      dsimp only at hok ⊢
      have hsame := beforeHeader_skip file cr3 m htype
      rw [hnext] at hsame
      have hrest := ih (by omega) hsame.symm hok
      have hlater {i : Nat} (hi : ePhnum file - (n + 1) ≤ i) (hload : IsLoad file i) : ePhnum file - n ≤ i := by
        have hne : i ≠ ePhnum file - (n + 1) := fun heq => htype (heq ▸ hload.2)
        omega
      exact { hrest with
        loads := fun i hi hload => hrest.loads i (hlater hi hload) hload
        ends := fun i hi hload => hrest.ends i (hlater hi hload) hload }
    · rw [if_neg htype] at hok ⊢
      have hload : IsLoad file (ePhnum file - (n + 1)) := ⟨by omega, not_not.mp htype⟩
      by_cases herr : (loadSegment file cr3 (phdr file (ePhnum file - (n + 1)))
          (beforeHeader file cr3 m (ePhnum file - (n + 1)))).1 ≠ .kSuccess
      · rw [if_pos herr] at hok
        exact absurd hok herr
      · rw [if_neg herr] at hok ⊢
        dsimp only at hok ⊢
        have hthis := beforeHeader_load file cr3 m hload
        rw [hnext] at hthis
        have hrest := ih (by omega) hthis.symm hok
        have hmax := hrest.lastAddr_le
        -- the segment is loaded, and its end counts if it is behind those before it
        refine ⟨hrest.machine, fun i hi hload' => ?_, by omega, fun i hi hload' => ?_, ?_⟩
        · by_cases heq : i = ePhnum file - (n + 1)
          · rw [heq]
            exact not_not.mp herr
          · exact hrest.loads i (by omega) hload'
        · by_cases heq : i = ePhnum file - (n + 1)
          · rw [heq]
            omega
          · exact hrest.ends i (by omega) hload'
        · rcases hrest.last with hlast | hlast
          · rcases max_choice lastAddr (add64 (phdr file (ePhnum file - (n + 1))).pVaddr
              (phdr file (ePhnum file - (n + 1))).pMemsz) with hold | hnew
            · exact .inl (hlast.trans hold)
            · exact .inr ⟨_, hload, hlast.trans hnew⟩
          · exact .inr hlast

/-- The page maps after the headers below `i`. -/
structure PagesAfter (file : Nat → UInt8) (cr3 i : Nat) (m : Machine) : Prop where
  tree : PrivateTree m cr3
  walk : ∀ v, Upper v → (m.walk cr3 v ≠ none ↔ ∃ j < i, IsLoad file j ∧ (phdr file j).InItsPages v)

section

variable (h : SoundSegments file size) (hsize : size ≤ 2 ^ 64) (htree : PrivateTree m cr3)
  (hbare : ∀ v, Upper v → m.walk cr3 v = none)
  (hloads : ∀ i, IsLoad file i →
    (loadSegment file cr3 (phdr file i) (beforeHeader file cr3 m i)).1 = .kSuccess)
include h hsize htree hbare hloads

theorem SoundSegments.pagesAfter (i : Nat) (hi : i ≤ ePhnum file) :
    PagesAfter file cr3 i (beforeHeader file cr3 m i) := by
  induction i with
  | zero =>
    refine ⟨htree, fun v hv => iff_of_false (not_not.mpr (hbare v hv)) ?_⟩
    rintro ⟨j, hj, -⟩
    omega
  | succ i ih =>
    have hpages := ih (by omega)
    by_cases hload : IsLoad file i
    · rw [beforeHeader_load file cr3 m hload]
      obtain ⟨m₁, hrun, htree', hwalk, -⟩ := (h.fits i hload).load hsize hpages.tree (hloads i hload)
      obtain ⟨-, hsetup⟩ := (h.fits i hload).setup hpages.tree.toPageTree hrun
      refine ⟨htree', fun v hv => ?_⟩
      rw [hwalk, hsetup v hv, hpages.walk v hv]
      constructor
      · rintro (⟨j, hj, hcover⟩ | hin)
        · exact ⟨j, by omega, hcover⟩
        · exact ⟨i, by omega, hload, hin⟩
      · rintro ⟨j, hj, hcover⟩
        by_cases heq : j = i
        · exact .inr (heq ▸ hcover.2)
        · exact .inl ⟨j, by omega, hcover⟩
    · rw [beforeHeader_skip file cr3 m fun htype => hload ⟨by omega, htype⟩]
      refine ⟨hpages.tree, fun v hv => (hpages.walk v hv).trans ⟨?_, ?_⟩⟩
      · rintro ⟨j, hj, hcover⟩
        exact ⟨j, by omega, hcover⟩
      · rintro ⟨j, hj, hcover⟩
        have hne : j ≠ i := fun heq => hload (heq ▸ hcover.1)
        exact ⟨j, by omega, hcover⟩

/-- The pages that are there when a segment is filled. -/
theorem SoundSegments.setupSegment_walk (hload : IsLoad file i) (hv : Upper v) :
    (setupSegment file cr3 m i).2.walk cr3 v ≠ none ↔ ∃ j ≤ i, IsLoad file j ∧ (phdr file j).InItsPages v := by
  have hpages := h.pagesAfter hsize htree hbare hloads i (Nat.le_of_lt hload.1)
  have hpages' := h.pagesAfter hsize htree hbare hloads (i + 1) hload.1
  obtain ⟨m₁, hrun, -, hwalk, -⟩ := (h.fits i hload).load hsize hpages.tree (hloads i hload)
  rw [beforeHeader_load file cr3 m hload] at hpages'
  rw [setupSegment, hrun, ← hwalk, hpages'.walk v hv]
  simp only [Nat.lt_succ_iff]

/-- With pages for all of them, the segments stay as they are loaded. -/
theorem SoundSegments.bytesAfter (hcovered : PagesCovered file) (i : Nat) (hi : i ≤ ePhnum file) :
    ∀ j < i, IsLoad file j → ∀ v, (phdr file j).Contains v →
      (beforeHeader file cr3 m i).loadByte cr3 v = some ((phdr file j).byteAt file v) := by
  induction i with
  | zero => exact fun j hj => absurd hj (Nat.not_lt_zero j)
  | succ i ih =>
    intro j hj hload v hin
    have hv := (h.fits j hload).upper hin
    have hpages := h.pagesAfter hsize htree hbare hloads i (by omega)
    by_cases hthis : IsLoad file i
    · rw [beforeHeader_load file cr3 m hthis]
      obtain ⟨m₁, hrun, -, -, hbytes, hothers⟩ := (h.fits i hthis).load hsize hpages.tree (hloads i hthis)
      obtain ⟨⟨_, _, hsets⟩, -⟩ := (h.fits i hthis).setup hpages.tree.toPageTree hrun
      by_cases heq : j = i
      · -- the segment itself
        subst heq
        apply hbytes v hin
        have hthere := (h.setupSegment_walk hsize htree hbare hloads hload hv).mpr (hcovered j hload v hin)
        rwa [setupSegment, hrun] at hthere
      · -- a segment before it has no byte in common with it
        have hold := ih (by omega) j (by omega) hload v hin
        rw [hothers v hv fun hin' => h.apart j i hload hthis heq v hin hin', hpages.tree.loadByte_kept hsets hv, hold]
        intro hnone
        rw [Machine.loadByte, hnone] at hold
        cases hold
    · have hne : j ≠ i := fun heq => hthis (heq ▸ hload)
      rw [beforeHeader_skip file cr3 m fun htype => hthis ⟨by omega, htype⟩]
      exact ih (by omega) j (by omega) hload v hin

end

/-- The pages are enough for segments whose last page is among those counted from the first one. -/
theorem PagesCovered.of_offsets (h : ∀ i, IsLoad file i →
    (phdr file i).pVaddr % 4096 + (phdr file i).pMemsz ≤ ((phdr file i).pMemsz + 4095) / 4096 * 4096) :
    PagesCovered file := by
  intro i hload v hin
  have hle := h i hload
  refine ⟨i, le_rfl, hload, ?_⟩
  unfold Elf64Phdr.Contains at hin
  unfold Elf64Phdr.InItsPages InPages
  omega

theorem SoundSegments.single (hnum : ePhnum file = 1) (hfits : SegmentFits size (phdr file 0)) :
    SoundSegments file size where
  fits i hload := by
    obtain rfl : i = 0 := by
      have hlt := hload.1
      omega
    exact hfits
  apart i j hi hj hne := by
    have hilt := hi.1
    have hjlt := hj.1
    omega

/-- Two bytes, the second of them in the next page. -/
def straddlingSegment : List Elf64Phdr := [⟨ptLoad, 0, kUpperHalf + 4095, 2, 2⟩]

end Elf

end MikanSaos
