import MikanSaos.App.SegmentPages

/-!
# KernelLoader — `kernel.elf` from the boot loader

The firmware maps each address to itself, and the file is in a buffer in the same memory that its segments are copied
to.  Only the pages that `AllocatePages` hands out keep the two apart.
-/

open Reasoning

namespace MikanSaos

/-- Memory below 2^64. -/
abbrev PhysicalMemory := Nat → UInt8

namespace Boot

open Elf

/-- `CopyMem` -/
def copyMem (mem : PhysicalMemory) (dst src n : Nat) : PhysicalMemory := fun a =>
  if sub64 a dst < n then mem (add64 src (sub64 a dst)) else mem a

/-- `SetMem` -/
def setMem (mem : PhysicalMemory) (dst n : Nat) (value : UInt8) : PhysicalMemory := fun a =>
  if sub64 a dst < n then value else mem a

/-- The buffer that `ehdr` points to, as a file. -/
def fileAt (mem : PhysicalMemory) (ehdr : Nat) : Nat → UInt8 := fun k => mem (add64 ehdr k)

/-- `first` and `last` -/
def calcLoadAddressRange (mem : PhysicalMemory) (ehdr : Nat) : Nat × Nat :=
  (List.range (ePhnum (fileAt mem ehdr))).foldl (fun (range : Nat × Nat) i =>
    let ph := phdr (fileAt mem ehdr) i
    if ph.pType ≠ ptLoad then range
    else (min range.1 ph.pVaddr, max range.2 (add64 ph.pVaddr ph.pMemsz))) (2 ^ 64 - 1, 0)

/-- A round of the loop of `CopyLoadSegments`; the header is read from the buffer. -/
def copySegment (ehdr : Nat) (mem : PhysicalMemory) (i : Nat) : PhysicalMemory :=
  let ph := phdr (fileAt mem ehdr) i
  if ph.pType ≠ ptLoad then mem
  else
    let segmInFile := add64 ehdr ph.pOffset
    let mem := copyMem mem ph.pVaddr segmInFile ph.pFilesz
    let remainBytes := sub64 ph.pMemsz ph.pFilesz
    setMem mem (add64 ph.pVaddr ph.pFilesz) remainBytes 0

def copyLoadSegments (mem : PhysicalMemory) (ehdr : Nat) : PhysicalMemory :=
  (List.range (ePhnum (fileAt mem ehdr))).foldl (copySegment ehdr) mem

/-- `num_pages` -/
def numPages (first last : Nat) : Nat := add64 (sub64 last first) 0xfff / 0x1000

/-- The part of `UefiMain` from the kernel's file to the entry point that is called at its end.  Where `AllocatePages`
fails the loader halts. -/
def loadKernel (allocatePages : (numPages addr : Nat) → Bool) (mem : PhysicalMemory) (ehdr : Nat) :
    Option (Nat × PhysicalMemory) :=
  let (first, last) := calcLoadAddressRange mem ehdr
  if allocatePages (numPages first last) first then
    let mem := copyLoadSegments mem ehdr
    some (field (fileAt mem first) 24 8, mem)
  else none

/-- A segment for the boot loader; physical addresses have 52 bits. -/
structure BootFits (size : Nat) (ph : Elf64Phdr) : Prop where
  filesz_le : ph.pFilesz ≤ ph.pMemsz
  end_le : ph.pVaddr + ph.pMemsz ≤ 2 ^ 52
  file : ph.pOffset + ph.pFilesz ≤ size

/-- The headers and the segments are in the file, and no two segments have a byte in common. -/
structure SoundKernel (file : Nat → UInt8) (size : Nat) : Prop where
  header : 64 ≤ size
  headers : ePhoff file + kPhdrBytes * ePhnum file ≤ size
  fits : ∀ i, IsLoad file i → BootFits size (phdr file i)
  apart : ∀ i j, IsLoad file i → IsLoad file j → i ≠ j → ∀ v, (phdr file i).Contains v → ¬ (phdr file j).Contains v

/-- What the firmware promises: the pages begin at the address, and they are not used by the pool. -/
def FreePages (allocatePages : (numPages addr : Nat) → Bool) (ehdr size : Nat) : Prop :=
  ∀ n addr, allocatePages n addr = true → addr % 4096 = 0 ∧ (addr + 4096 * n ≤ ehdr ∨ ehdr + size ≤ addr)

section Loading

variable {mem mem' : PhysicalMemory} {ehdr size a i n first last : Nat} {file : Nat → UInt8}

/-! ## Memory -/

theorem copyMem_apply {dst src : Nat} (ha : a < 2 ^ 64) (hdst : dst + n ≤ 2 ^ 64) (hsrc : src + n ≤ 2 ^ 64) :
    copyMem mem dst src n a = if dst ≤ a ∧ a < dst + n then mem (src + (a - dst)) else mem a := by
  unfold copyMem
  by_cases hin : dst ≤ a ∧ a < dst + n
  · have hk : sub64 a dst = a - dst := by
      unfold sub64
      omega
    have hfrom : add64 src (a - dst) = src + (a - dst) := by
      unfold add64
      omega
    rw [if_pos hin, hk, if_pos (by omega), hfrom]
  · rw [if_neg hin, if_neg]
    unfold sub64
    omega

theorem setMem_apply {dst : Nat} {value : UInt8} (ha : a < 2 ^ 64) (hdst : dst + n ≤ 2 ^ 64) :
    setMem mem dst n value a = if dst ≤ a ∧ a < dst + n then value else mem a := by
  unfold setMem
  by_cases hin : dst ≤ a ∧ a < dst + n
  · rw [if_pos hin, if_pos]
    unfold sub64
    omega
  · rw [if_neg hin, if_neg]
    unfold sub64
    omega

/-! ## The file in the buffer -/

/-- The bytes of the file that are in the buffer. -/
def Agree (size : Nat) (file file' : Nat → UInt8) : Prop := ∀ k < size, file k = file' k

theorem field_agree {file' : Nat → UInt8} {offset : Nat} (h : Agree size file file') (hin : offset + n ≤ size)
    (hsize : size ≤ 2 ^ 64) : field file offset n = field file' offset n := by
  apply readLE_congr
  intro k _ hk
  rw [Nat.mod_eq_of_lt (by omega)]
  exact h k (by omega)

theorem headers_agree {file' : Nat → UInt8} (h : Agree size file file') (hheader : 64 ≤ size) (hsize : size ≤ 2 ^ 64) :
    ePhoff file = ePhoff file' ∧ ePhnum file = ePhnum file' :=
  ⟨field_agree h (by omega) hsize, field_agree h (by omega) hsize⟩

theorem phdr_agree {file' : Nat → UInt8} (h : Agree size file file') (hheader : 64 ≤ size) (hsize : size ≤ 2 ^ 64)
    (hin : ePhoff file + kPhdrBytes * (i + 1) ≤ size) : phdr file i = phdr file' i := by
  have hkPhdrBytes : kPhdrBytes = 56 := rfl
  have hoffset : phdrOffset file i = phdrOffset file' i := by
    unfold phdrOffset
    rw [(headers_agree h hheader hsize).1]
  have hle : phdrOffset file i + 56 ≤ size := by
    have hmod : phdrOffset file i ≤ ePhoff file + kPhdrBytes * i := Nat.mod_le _ _
    rw [hkPhdrBytes] at hin hmod
    omega
  have hfield : ∀ k n, k + n ≤ 56 → field file (phdrOffset file i + k) n = field file' (phdrOffset file i + k) n :=
    fun k n hkn => field_agree h (by omega) hsize
  have hfirst := hfield 0 4 (by decide)
  rw [Nat.add_zero] at hfirst
  unfold phdr
  rw [← hoffset]
  dsimp only
  rw [hfirst, hfield 8 8 (by decide), hfield 16 8 (by decide), hfield 32 8 (by decide), hfield 40 8 (by decide)]

/-! ## The address range -/

/-- What the range says about the segments. -/
structure RangeOf (file : Nat → UInt8) (range : Nat × Nat) : Prop where
  last_le : range.2 ≤ 2 ^ 52
  covers : ∀ i, IsLoad file i → range.1 ≤ (phdr file i).pVaddr ∧ (phdr file i).pVaddr + (phdr file i).pMemsz ≤ range.2
  first : range.1 = 2 ^ 64 - 1 ∨ ∃ i, IsLoad file i ∧ range.1 = (phdr file i).pVaddr

theorem rangeOf_calcLoadAddressRange (mem : PhysicalMemory) (ehdr : Nat)
    (hend : ∀ i, IsLoad (fileAt mem ehdr) i →
      (phdr (fileAt mem ehdr) i).pVaddr + (phdr (fileAt mem ehdr) i).pMemsz ≤ 2 ^ 52) :
    RangeOf (fileAt mem ehdr) (calcLoadAddressRange mem ehdr) := by
  unfold calcLoadAddressRange
  generalize fileAt mem ehdr = file at hend ⊢
  suffices h : ∀ n ≤ ePhnum file, ∀ r, r = (List.range n).foldl (fun (range : Nat × Nat) i =>
      let ph := phdr file i
      if ph.pType ≠ ptLoad then range
      else (min range.1 ph.pVaddr, max range.2 (add64 ph.pVaddr ph.pMemsz))) (2 ^ 64 - 1, 0) →
      r.2 ≤ 2 ^ 52 ∧
        (∀ i < n, (phdr file i).pType = ptLoad →
          r.1 ≤ (phdr file i).pVaddr ∧ (phdr file i).pVaddr + (phdr file i).pMemsz ≤ r.2) ∧
        (r.1 = 2 ^ 64 - 1 ∨ ∃ i < n, (phdr file i).pType = ptLoad ∧ r.1 = (phdr file i).pVaddr) by
    obtain ⟨hlast, hall, hfirst⟩ := h (ePhnum file) (Nat.le_refl _) _ rfl
    exact ⟨hlast, fun i hi => hall i hi.1 hi.2, hfirst.imp_right fun ⟨i, hi, hload, heq⟩ => ⟨i, ⟨hi, hload⟩, heq⟩⟩
  intro n
  induction n with
  | zero =>
    rintro - r rfl
    exact ⟨Nat.zero_le _, fun i hi => absurd hi (Nat.not_lt_zero i), .inl rfl⟩
  | succ n ih =>
    rintro hn r rfl
    obtain ⟨hlast, hall, hfirst⟩ := ih (by omega) _ rfl
    rw [List.range_succ, List.foldl_append, List.foldl_cons, List.foldl_nil]
    generalize (List.range n).foldl _ (2 ^ 64 - 1, 0) = r at hlast hall hfirst ⊢
    dsimp only
    by_cases hload : (phdr file n).pType = ptLoad
    · rw [if_neg (not_not.mpr hload)]
      have hle := hend n ⟨by omega, hload⟩
      have hadd : add64 (phdr file n).pVaddr (phdr file n).pMemsz = (phdr file n).pVaddr + (phdr file n).pMemsz := by
        unfold add64
        omega
      rw [hadd]
      refine ⟨by dsimp only; omega, fun i hi htype => ?_, ?_⟩
      · dsimp only
        rcases Nat.lt_succ_iff_lt_or_eq.mp hi with hlt | rfl
        · have hi := hall i hlt htype
          omega
        · omega
      · dsimp only
        rcases Nat.le_total r.1 (phdr file n).pVaddr with hmin | hmin
        · rw [Nat.min_eq_left hmin]
          exact hfirst.imp_right fun ⟨i, hi, h⟩ => ⟨i, by omega, h⟩
        · rw [Nat.min_eq_right hmin]
          exact .inr ⟨n, by omega, hload, rfl⟩
    · rw [if_pos hload]
      refine ⟨hlast, fun i hi htype => ?_, hfirst.imp_right fun ⟨i, hi, h⟩ => ⟨i, by omega, h⟩⟩
      rcases Nat.lt_succ_iff_lt_or_eq.mp hi with hlt | rfl
      · exact hall i hlt htype
      · exact absurd htype hload

/-! ## The copies -/

theorem copySegment_load (hehdr : ehdr + size ≤ 2 ^ 52) (hload : (phdr (fileAt mem ehdr) i).pType = ptLoad)
    (hfits : BootFits size (phdr (fileAt mem ehdr) i)) (ha : a < 2 ^ 64) :
    copySegment ehdr mem i a =
      if (phdr (fileAt mem ehdr) i).pVaddr ≤ a ∧
          a < (phdr (fileAt mem ehdr) i).pVaddr + (phdr (fileAt mem ehdr) i).pMemsz then
        (phdr (fileAt mem ehdr) i).byteAt (fileAt mem ehdr) a
      else mem a := by
  unfold copySegment
  obtain ⟨hfilesz, hend, hfile⟩ := hfits
  generalize phdr (fileAt mem ehdr) i = ph at hload hfilesz hend hfile ⊢
  have hsource : add64 ehdr ph.pOffset = ehdr + ph.pOffset := by
    unfold add64
    omega
  have hzeros : add64 ph.pVaddr ph.pFilesz = ph.pVaddr + ph.pFilesz := by
    unfold add64
    omega
  have hremain : sub64 ph.pMemsz ph.pFilesz = ph.pMemsz - ph.pFilesz := by
    unfold sub64
    omega
  dsimp only
  rw [if_neg (not_not.mpr hload), hsource, hzeros, hremain, setMem_apply ha (by omega),
    copyMem_apply ha (by omega) (by omega)]
  unfold Elf64Phdr.byteAt
  by_cases hcopied : ph.pVaddr ≤ a ∧ a < ph.pVaddr + ph.pFilesz
  · -- a byte of the file
    rw [if_neg (by omega), if_pos hcopied, if_pos (by omega), if_pos (by omega)]
    have hbyte : add64 ehdr (ph.pOffset + (a - ph.pVaddr)) = ehdr + ph.pOffset + (a - ph.pVaddr) := by
      unfold add64
      omega
    rw [fileAt, hbyte]
  · rw [if_neg hcopied]
    by_cases hin : ph.pVaddr ≤ a ∧ a < ph.pVaddr + ph.pMemsz
    · rw [if_pos (by omega), if_pos hin, if_neg (by omega)]
    · rw [if_neg (by omega), if_neg hin]

/-- What the loop has done before header `n`. -/
structure Copied (file : Nat → UInt8) (mem mem' : PhysicalMemory) (n : Nat) : Prop where
  copied : ∀ i < n, IsLoad file i → ∀ v, (phdr file i).Contains v → mem' v = (phdr file i).byteAt file v
  kept : ∀ a < 2 ^ 64, (∀ i < n, IsLoad file i → ¬ (phdr file i).Contains a) → mem' a = mem a

/-- No segment is copied to the buffer of the file. -/
def BufferApart (file : Nat → UInt8) (ehdr size : Nat) : Prop :=
  ∀ i, IsLoad file i → ∀ v, (phdr file i).Contains v → v < ehdr ∨ ehdr + size ≤ v

theorem Copied.agree (h : Copied (fileAt mem ehdr) mem mem' n) (hehdr : ehdr + size ≤ 2 ^ 52)
    (hapart : BufferApart (fileAt mem ehdr) ehdr size) : Agree size (fileAt mem ehdr) (fileAt mem' ehdr) := by
  intro k hk
  have haddr : add64 ehdr k = ehdr + k := by
    unfold add64
    omega
  unfold fileAt
  rw [haddr]
  apply (h.kept (ehdr + k) (by omega) _).symm
  intro i _ hi hcontains
  have hout := hapart i hi _ hcontains
  omega

theorem Copied.step (h : Copied (fileAt mem ehdr) mem mem' n) (hsound : SoundKernel (fileAt mem ehdr) size)
    (hehdr : ehdr + size ≤ 2 ^ 52) (hapart : BufferApart (fileAt mem ehdr) ehdr size)
    (hn : n < ePhnum (fileAt mem ehdr)) :
    Copied (fileAt mem ehdr) mem (copySegment ehdr mem' n) (n + 1) := by
  have hagree := h.agree hehdr hapart
  have hheaders := hsound.headers
  have htable : ePhoff (fileAt mem ehdr) + kPhdrBytes * (n + 1) ≤ size := by
    have hmul : kPhdrBytes * (n + 1) ≤ kPhdrBytes * ePhnum (fileAt mem ehdr) := Nat.mul_le_mul_left _ hn
    omega
  have hphdr : phdr (fileAt mem ehdr) n = phdr (fileAt mem' ehdr) n :=
    phdr_agree hagree hsound.header (by omega) htable
  by_cases hload : (phdr (fileAt mem ehdr) n).pType = ptLoad
  · have hfits := hsound.fits n ⟨hn, hload⟩
    have hload' := hload
    have hfits' := hfits
    rw [hphdr] at hload' hfits'
    have hspec := fun a ha => @copySegment_load mem' ehdr size a n hehdr hload' hfits' ha
    rw [← hphdr] at hspec
    have hin : ∀ a < 2 ^ 64, (phdr (fileAt mem ehdr) n).Contains a →
        copySegment ehdr mem' n a = (phdr (fileAt mem ehdr) n).byteAt (fileAt mem ehdr) a := by
      intro a ha hcontains
      refine (hspec a ha).trans ((if_pos hcontains).trans ?_)
      -- the byte in the buffer is still that of the file
      have hfile := hfits.file
      unfold Elf64Phdr.byteAt
      by_cases hfilesz : a - (phdr (fileAt mem ehdr) n).pVaddr < (phdr (fileAt mem ehdr) n).pFilesz
      · rw [if_pos hfilesz, if_pos hfilesz, hagree _ (by omega)]
      · rw [if_neg hfilesz, if_neg hfilesz]
    have hout : ∀ a < 2 ^ 64, ¬ (phdr (fileAt mem ehdr) n).Contains a → copySegment ehdr mem' n a = mem' a := by
      intro a ha hcontains
      rw [hspec a ha]
      exact if_neg hcontains
    refine ⟨fun i hi hi' v hv => ?_, fun a ha hnone => ?_⟩
    · have hend := (hsound.fits i hi').end_le
      have hlt : v < 2 ^ 64 := by
        have hv2 := hv.2
        omega
      rcases Nat.lt_succ_iff_lt_or_eq.mp hi with hlower | rfl
      · rw [hout v hlt (hsound.apart i n hi' ⟨hn, hload⟩ (by omega) v hv)]
        exact h.copied i hlower hi' v hv
      · exact hin v hlt hv
    · rw [hout a ha (hnone n (Nat.lt_succ_self n) ⟨hn, hload⟩)]
      exact h.kept a ha fun i hi => hnone i (by omega)
  · have hskip : copySegment ehdr mem' n = mem' := by
      unfold copySegment
      dsimp only
      rw [← hphdr, if_pos hload]
    rw [hskip]
    refine ⟨fun i hi hi' => ?_, fun a ha hnone => h.kept a ha fun i hi => hnone i (by omega)⟩
    rcases Nat.lt_succ_iff_lt_or_eq.mp hi with hlt | rfl
    · exact h.copied i hlt hi'
    · exact absurd hi'.2 hload

theorem copied_run (hsound : SoundKernel (fileAt mem ehdr) size) (hehdr : ehdr + size ≤ 2 ^ 52)
    (hapart : BufferApart (fileAt mem ehdr) ehdr size) :
    Copied (fileAt mem ehdr) mem (copyLoadSegments mem ehdr) (ePhnum (fileAt mem ehdr)) := by
  suffices h : ∀ n ≤ ePhnum (fileAt mem ehdr),
      Copied (fileAt mem ehdr) mem ((List.range n).foldl (copySegment ehdr) mem) n from h _ (Nat.le_refl _)
  intro n hn
  induction n with
  | zero => exact ⟨fun i hi => absurd hi (Nat.not_lt_zero i), fun a _ _ => rfl⟩
  | succ n ih =>
    rw [List.range_succ, List.foldl_append, List.foldl_cons, List.foldl_nil]
    exact (ih (by omega)).step hsound hehdr hapart hn

/-- The pages that are asked for hold all segments. -/
theorem RangeOf.pages {range : Nat × Nat} (h : RangeOf file range) (hi : IsLoad file i) {v : Nat}
    (hv : (phdr file i).Contains v) : range.1 ≤ v ∧ v < range.1 + 4096 * numPages range.1 range.2 := by
  have hlast := h.last_le
  obtain ⟨hfirst, hend⟩ := h.covers i hi
  obtain ⟨hlo, hhi⟩ := hv
  have hpages : numPages range.1 range.2 = (range.2 - range.1 + 0xfff) / 0x1000 := by
    unfold numPages add64 sub64
    omega
  rw [hpages]
  omega

/-- **The kernel is loaded as its file says.**  If the loader gets its pages, every byte of every segment is that of
the file, or zero behind the part that is in the file; all of them are in the pages, no other byte of the memory
changes, and where the lowest segment begins with the header of the file, the entry point is the one in the header. -/
theorem loadKernel_loads {allocatePages : (numPages addr : Nat) → Bool} {entry : Nat} (hehdr : ehdr + size ≤ 2 ^ 52)
    (hsound : SoundKernel (fileAt mem ehdr) size) (hpages : FreePages allocatePages ehdr size)
    (hload : loadKernel allocatePages mem ehdr = some (entry, mem')) :
    (∀ i, IsLoad (fileAt mem ehdr) i → ∀ v, (phdr (fileAt mem ehdr) i).Contains v →
      mem' v = (phdr (fileAt mem ehdr) i).byteAt (fileAt mem ehdr) v) ∧
    (∃ first last, allocatePages (numPages first last) first = true ∧
      ∀ i, IsLoad (fileAt mem ehdr) i → ∀ v, (phdr (fileAt mem ehdr) i).Contains v →
        first ≤ v ∧ v < first + 4096 * numPages first last) ∧
    (∀ a < 2 ^ 64, (∀ i, IsLoad (fileAt mem ehdr) i → ¬ (phdr (fileAt mem ehdr) i).Contains a) → mem' a = mem a) ∧
    ∀ i, IsLoad (fileAt mem ehdr) i →
      (∀ j, IsLoad (fileAt mem ehdr) j → (phdr (fileAt mem ehdr) i).pVaddr ≤ (phdr (fileAt mem ehdr) j).pVaddr) →
      (phdr (fileAt mem ehdr) i).pOffset = 0 → 32 ≤ (phdr (fileAt mem ehdr) i).pFilesz →
      entry = eEntry (fileAt mem ehdr) := by
  have hrange := rangeOf_calcLoadAddressRange mem ehdr fun i hi => (hsound.fits i hi).end_le
  unfold loadKernel at hload
  generalize calcLoadAddressRange mem ehdr = range at hrange hload
  obtain ⟨first, last⟩ := range
  dsimp only at hload
  by_cases hgot : allocatePages (numPages first last) first = true
  · rw [if_pos hgot] at hload
    obtain ⟨hentry, hmem⟩ := Prod.mk.inj (Option.some.inj hload)
    subst hmem
    have hfree := (hpages _ _ hgot).2
    have hapart : BufferApart (fileAt mem ehdr) ehdr size := by
      intro i hi v hv
      have hin := hrange.pages hi hv
      dsimp only at hin
      omega
    have hcopied := copied_run hsound hehdr hapart
    refine ⟨fun i hi => hcopied.copied i hi.1 hi, ⟨first, last, hgot, fun i hi v hv => hrange.pages hi hv⟩,
      fun a ha hnone => hcopied.kept a ha fun i _ => hnone i, fun i hi hlowest hoffset hfilesz => ?_⟩
    -- the lowest segment begins where the range does
    have hfirst : first = (phdr (fileAt mem ehdr) i).pVaddr := by
      have hle := (hrange.covers i hi).1
      have hend := (hsound.fits i hi).end_le
      rcases hrange.first with hnone | ⟨j, hj, heq⟩
      · dsimp only at hnone hle
        omega
      · have hij := hlowest j hj
        dsimp only at heq hle
        omega
    have hend := (hsound.fits i hi).end_le
    have hmemsz := (hsound.fits i hi).filesz_le
    rw [← hentry]
    unfold eEntry field
    refine readLE_congr fun k hlo hhi => ?_
    have haddr : add64 first (k % 2 ^ 64) = (phdr (fileAt mem ehdr) i).pVaddr + k := by
      rw [hfirst]
      unfold add64
      omega
    have hbyte := hcopied.copied i hi.1 hi ((phdr (fileAt mem ehdr) i).pVaddr + k)
      ⟨Nat.le_add_right _ _, by omega⟩
    show copyLoadSegments mem ehdr (add64 first (k % 2 ^ 64)) = fileAt mem ehdr (k % 2 ^ 64)
    rw [haddr, hbyte]
    unfold Elf64Phdr.byteAt
    rw [if_pos (by omega), hoffset, Nat.mod_eq_of_lt (by omega), Nat.add_sub_cancel_left, Nat.zero_add]
  · rw [if_neg hgot] at hload
    cases hload

end Loading

/-- A file of 120 bytes with one segment, which begins with the header. -/
def tinyKernel : Nat → UInt8
  | 16 => 2
  | 24 => 0x20
  | 26 => 0x10
  | 32 => 64
  | 56 => 1
  | 64 => 1
  | 82 => 0x10
  | 96 => 120
  | 104 => 160
  | _ => 0

def tinyMemory : PhysicalMemory := fun a => tinyKernel (a - 0x200000)

/-- All pages but those of the buffer are free. -/
def tinyPages (n addr : Nat) : Bool := addr % 4096 = 0 ∧ (addr + 4096 * n ≤ 0x200000 ∨ 0x200000 + 120 ≤ addr)

theorem tinyMemory_phdr : phdr (fileAt tinyMemory 0x200000) 0 = ⟨1, 0, 0x100000, 120, 160⟩ := by decide +kernel

theorem tinyMemory_sound : SoundKernel (fileAt tinyMemory 0x200000) 120 := by
  have honly : ∀ i, IsLoad (fileAt tinyMemory 0x200000) i → i = 0 := by
    intro i hi
    have hnum : ePhnum (fileAt tinyMemory 0x200000) = 1 := by decide +kernel
    have hlt := hi.1
    omega
  refine ⟨by decide, by decide +kernel, fun i hi => ?_, fun i j hi hj hne => ?_⟩
  · rw [honly i hi, tinyMemory_phdr]
    exact ⟨by decide, by decide, by decide⟩
  · exact absurd ((honly i hi).trans (honly j hj).symm) hne

theorem tinyKernel_range : calcLoadAddressRange tinyMemory 0x200000 = (0x100000, 0x1000a0) := by decide +kernel

theorem tinyKernel_loads : ∃ entry mem', loadKernel tinyPages tinyMemory 0x200000 = some (entry, mem') ∧
    entry = 0x100020 ∧ mem' 0x100010 = 2 ∧ mem' 0x100078 = 0 := by
  have hload : loadKernel tinyPages tinyMemory 0x200000 =
      some (field (fileAt (copyLoadSegments tinyMemory 0x200000) 0x100000) 24 8,
        copyLoadSegments tinyMemory 0x200000) := by
    unfold loadKernel
    rw [tinyKernel_range]
    exact if_pos (by decide)
  have hzero : IsLoad (fileAt tinyMemory 0x200000) 0 := ⟨by decide +kernel, by rw [tinyMemory_phdr]; rfl⟩
  obtain ⟨hbytes, -, -, hentry⟩ := loadKernel_loads (by decide) tinyMemory_sound
    (fun n addr h => of_decide_eq_true h) hload
  have hsegment := hbytes 0 hzero
  have hfirst := hentry 0 hzero
  rw [tinyMemory_phdr] at hsegment hfirst
  refine ⟨_, _, hload, ?_, ?_, ?_⟩
  · rw [hfirst (fun j hj => by
      have hnum : ePhnum (fileAt tinyMemory 0x200000) = 1 := by decide +kernel
      have hj0 : j = 0 := by
        have hlt := hj.1
        omega
      rw [hj0, tinyMemory_phdr]) rfl (by decide)]
    decide +kernel
  · rw [hsegment 0x100010 ⟨by decide, by decide⟩]
    decide +kernel
  · rw [hsegment 0x100078 ⟨by decide, by decide⟩]
    decide +kernel

end Boot

end MikanSaos
