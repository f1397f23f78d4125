import MikanSaos.FileSystem.Volume
import Mathlib.Data.Set.Lattice
import Mathlib.Order.CompletePartialOrder
import Mathlib.Order.BooleanAlgebra.Set
import Mathlib.Order.Interval.Set.Disjoint
import Mathlib.Tactic.Ring

/-!
# VolumeLayout — where the FAT and the clusters are in memory

The addresses are computed from fields of the BPB that are 8, 16 and 32 bits wide.  The number of the sector in front
of the clusters is a sum of 32 bits and the address of a cluster one of 64; the offset of the FAT is an `int`.
-/

open Reasoning

namespace MikanSaos

/-- The fields that the addresses depend on. -/
structure BPB where
  bytesPerSector : UInt16
  sectorsPerCluster : UInt8
  reservedSectorCount : UInt16
  numFats : UInt8
  totalSectors32 : UInt32
  fatSize32 : UInt32
  rootCluster : UInt32

/-- `boot_volume_image` and the BPB there.  The sectors of the volume are in memory. -/
structure VolumeImage where
  bpb : BPB
  bootVolumeImage : UInt64
  inSpace : bootVolumeImage.toNat + bpb.totalSectors32.toNat * bpb.bytesPerSector.toNat < 2 ^ 64

namespace VolumeImage

/-- What `Initialize` sets. -/
def bytesPerCluster (v : VolumeImage) : UInt64 :=
  v.bpb.bytesPerSector.toUInt64 * v.bpb.sectorsPerCluster.toUInt64

def getClusterAddr (v : VolumeImage) (cluster : UInt64) : UInt64 :=
  let sectorNum :=
    -- without a sign, as `fat_size_32` is
    (v.bpb.reservedSectorCount.toUInt32 + v.bpb.numFats.toUInt32 * v.bpb.fatSize32).toUInt64 +
      (cluster - 2) * v.bpb.sectorsPerCluster.toUInt64
  let offset := sectorNum * v.bpb.bytesPerSector.toUInt64
  v.bootVolumeImage + offset

def getFAT (v : VolumeImage) : UInt64 :=
  -- both factors are promoted to `int`
  let fatOffset := int32 (v.bpb.reservedSectorCount.toNat * v.bpb.bytesPerSector.toNat)
  v.bootVolumeImage + UInt64.ofNat (word64 fatOffset)

/-! ## The layout -/

/-- The sectors of the volume that lie in front of the clusters. -/
def clusterStart (v : VolumeImage) : Nat :=
  v.bpb.reservedSectorCount.toNat + v.bpb.numFats.toNat * v.bpb.fatSize32.toNat

/-- The bytes of the volume in front of the cluster with `i` clusters in front of it. -/
def clusterOffset (v : VolumeImage) (i : Nat) : Nat :=
  (v.clusterStart + i * v.bpb.sectorsPerCluster.toNat) * v.bpb.bytesPerSector.toNat

def fatOffset (v : VolumeImage) : Nat := v.bpb.reservedSectorCount.toNat * v.bpb.bytesPerSector.toNat

/-- Volumes with `n` data clusters. -/
structure Fits (v : VolumeImage) (n : Nat) : Prop where
  sectors : v.clusterStart + n * v.bpb.sectorsPerCluster.toNat ≤ v.bpb.totalSectors32.toNat
  /-- Each FAT has a cell of 32 bits for every cluster. -/
  room : 0 < v.bpb.numFats.toNat → 4 * (n + 2) ≤ v.bpb.fatSize32.toNat * v.bpb.bytesPerSector.toNat

def IsData (n : Nat) (cluster : UInt64) : Prop := 2 ≤ cluster.toNat ∧ cluster.toNat < n + 2

def image (v : VolumeImage) : Set Nat := Set.Ico v.bootVolumeImage.toNat
  (v.bootVolumeImage.toNat + v.bpb.totalSectors32.toNat * v.bpb.bytesPerSector.toNat)

def region (v : VolumeImage) (cluster : UInt64) : Set Nat := Set.Ico (v.getClusterAddr cluster).toNat
  ((v.getClusterAddr cluster).toNat + v.bytesPerCluster.toNat)

/-- `GetFAT()[cluster]` -/
def fatEntry (v : VolumeImage) (cluster : UInt64) : Set Nat := Set.Ico (v.getFAT.toNat + 4 * cluster.toNat)
  (v.getFAT.toNat + 4 * cluster.toNat + 4)

/-- The clusters and their cells are apart, and the addresses are those of the numbers. -/
structure Layout (v : VolumeImage) (n : Nat) : Prop where
  disjoint : ∀ c d, IsData n c → IsData n d → c ≠ d → Disjoint (v.region c) (v.region d)
  apart : ∀ c d, IsData n c → IsData n d → Disjoint (v.region c) (v.fatEntry d)
  inside : ∀ c, IsData n c → v.region c ⊆ v.image
  bytes_eq : v.bytesPerCluster.toNat = v.bpb.bytesPerSector.toNat * v.bpb.sectorsPerCluster.toNat
  addr_eq : ∀ c, IsData n c → (v.getClusterAddr c).toNat = v.bootVolumeImage.toNat + v.clusterOffset (c.toNat - 2)
  fat_eq : v.getFAT.toNat = v.bootVolumeImage.toNat + v.fatOffset

variable {v : VolumeImage} {n : Nat} {c d : UInt64}

/-! ## Addresses -/

theorem bytesPerCluster_toNat :
    v.bytesPerCluster.toNat = v.bpb.bytesPerSector.toNat * v.bpb.sectorsPerCluster.toNat := by
  have hsector := v.bpb.bytesPerSector.toNat_lt
  have hcluster := v.bpb.sectorsPerCluster.toNat_lt
  have hproduct : v.bpb.bytesPerSector.toNat * v.bpb.sectorsPerCluster.toNat ≤ 2 ^ 16 * 2 ^ 8 :=
    Nat.mul_le_mul hsector.le hcluster.le
  unfold bytesPerCluster
  rw [UInt64.toNat_mul, UInt16.toNat_toUInt64, UInt8.toNat_toUInt64]
  exact Nat.mod_eq_of_lt (by omega)

/-- The sectors in front of a cluster, or in front of the end of the last one. -/
theorem Fits.sector_le (h : v.Fits n) {i : Nat} (hi : i ≤ n) :
    v.clusterStart + i * v.bpb.sectorsPerCluster.toNat ≤ v.bpb.totalSectors32.toNat := by
  have hsectors := h.sectors
  have hle := Nat.mul_le_mul_right v.bpb.sectorsPerCluster.toNat hi
  omega

/-- The sum of 32 bits does not wrap. -/
theorem Fits.clusterStart_toNat (h : v.Fits n) :
    (v.bpb.reservedSectorCount.toUInt32 + v.bpb.numFats.toUInt32 * v.bpb.fatSize32).toNat = v.clusterStart := by
  have hle := h.sector_le (Nat.zero_le n)
  have htotal := v.bpb.totalSectors32.toNat_lt
  have hstart : v.clusterStart =
      v.bpb.reservedSectorCount.toNat + v.bpb.numFats.toNat * v.bpb.fatSize32.toNat := rfl
  rw [UInt32.toNat_add, UInt32.toNat_mul, UInt16.toNat_toUInt32, UInt8.toNat_toUInt32, hstart]
  -- the sum is at most the number of sectors, which has 32 bits
  rw [hstart] at hle
  rw [Nat.mod_eq_of_lt (by omega : v.bpb.numFats.toNat * v.bpb.fatSize32.toNat < 2 ^ 32)]
  exact Nat.mod_eq_of_lt (by omega)

theorem Fits.getClusterAddr_toNat (h : v.Fits n) (hc : IsData n c) :
    (v.getClusterAddr c).toNat = v.bootVolumeImage.toNat + v.clusterOffset (c.toNat - 2) := by
  obtain ⟨hfirst, hlast⟩ := hc
  have hsector : v.clusterStart + (c.toNat - 2) * v.bpb.sectorsPerCluster.toNat ≤ v.bpb.totalSectors32.toNat :=
    h.sector_le (by omega)
  have hbytes := Nat.mul_le_mul_right v.bpb.bytesPerSector.toNat hsector
  have htotal := v.bpb.totalSectors32.toNat_lt
  have hin := v.inSpace
  have hsub : (c - 2).toNat = c.toNat - 2 := UInt64.toNat_sub_of_le c 2 hfirst
  have hmul : ((c - 2) * v.bpb.sectorsPerCluster.toUInt64).toNat =
      (c.toNat - 2) * v.bpb.sectorsPerCluster.toNat := by
    rw [UInt64.toNat_mul, hsub, UInt8.toNat_toUInt64]
    exact Nat.mod_eq_of_lt (by omega)
  unfold getClusterAddr clusterOffset
  dsimp only
  rw [UInt64.toNat_add, UInt64.toNat_mul, UInt64.toNat_add, UInt32.toNat_toUInt64, h.clusterStart_toNat, hmul,
    UInt16.toNat_toUInt64]
  -- none of the three operations wraps, since the sector is one of the volume and the volume is in memory
  rw [Nat.mod_eq_of_lt (by omega :
    v.clusterStart + (c.toNat - 2) * v.bpb.sectorsPerCluster.toNat < 2 ^ 64)]
  rw [Nat.mod_eq_of_lt (by omega : (v.clusterStart + (c.toNat - 2) * v.bpb.sectorsPerCluster.toNat) *
    v.bpb.bytesPerSector.toNat < 2 ^ 64)]
  exact Nat.mod_eq_of_lt (by omega)

theorem clusterOffset_mono {i j : Nat} (h : i ≤ j) : v.clusterOffset i ≤ v.clusterOffset j := by
  unfold clusterOffset
  gcongr

theorem clusterOffset_eq (i : Nat) : v.clusterOffset i = v.clusterOffset 0 + i * v.bytesPerCluster.toNat := by
  rw [bytesPerCluster_toNat]
  unfold clusterOffset
  ring

/-- A cluster ends where the next one begins. -/
theorem clusterOffset_succ (i : Nat) : v.clusterOffset i + v.bytesPerCluster.toNat = v.clusterOffset (i + 1) := by
  rw [clusterOffset_eq i, clusterOffset_eq (i + 1)]
  ring

theorem clusterOffset_zero : v.clusterOffset 0 =
    v.fatOffset + v.bpb.numFats.toNat * (v.bpb.fatSize32.toNat * v.bpb.bytesPerSector.toNat) := by
  unfold clusterOffset clusterStart fatOffset
  ring

theorem Fits.clusterOffset_le (h : v.Fits n) {i : Nat} (hi : i ≤ n) :
    v.clusterOffset i ≤ v.bpb.totalSectors32.toNat * v.bpb.bytesPerSector.toNat :=
  Nat.mul_le_mul_right _ (h.sector_le hi)

/-- An `int` that wraps takes 2 ^ 32 bytes from the address. -/
theorem add_int32_iff {base offset : Nat} (hspace : base + offset < 2 ^ 64) (hoffset : offset < 2 ^ 32) :
    (base + word64 (int32 offset) % 2 ^ 64) % 2 ^ 64 = base + offset ↔ offset < 2 ^ 31 := by
  unfold word64 int32
  omega

theorem fatOffset_lt : v.fatOffset < 2 ^ 32 := by
  have hproduct : v.fatOffset ≤ (2 ^ 16 - 1) * (2 ^ 16 - 1) :=
    Nat.mul_le_mul (Nat.le_sub_one_of_lt v.bpb.reservedSectorCount.toNat_lt)
      (Nat.le_sub_one_of_lt v.bpb.bytesPerSector.toNat_lt)
  exact hproduct.trans_lt (by decide)

/-- The product is the one of the numbers exactly when it is an `int`. -/
theorem Fits.getFAT_toNat_iff (h : v.Fits n) :
    v.getFAT.toNat = v.bootVolumeImage.toNat + v.fatOffset ↔ v.fatOffset < 2 ^ 31 := by
  -- the FAT begins inside the image, so that the sum is in memory
  have hfirst : v.fatOffset ≤ v.clusterOffset 0 := by
    rw [clusterOffset_zero]
    exact Nat.le_add_right ..
  have hlast := h.clusterOffset_le (Nat.zero_le n)
  have hin := v.inSpace
  have hfat : v.getFAT.toNat = (v.bootVolumeImage.toNat + word64 (int32 v.fatOffset) % 2 ^ 64) % 2 ^ 64 := by
    unfold getFAT fatOffset
    dsimp only
    rw [UInt64.toNat_add, UInt64.toNat_ofNat', Int.natCast_mul]
  rw [hfat]
  exact add_int32_iff (by omega) fatOffset_lt

/-! ## Regions -/

theorem Fits.region_eq (h : v.Fits n) (hc : IsData n c) : v.region c =
    Set.Ico (v.bootVolumeImage.toNat + v.clusterOffset (c.toNat - 2))
      (v.bootVolumeImage.toNat + v.clusterOffset (c.toNat - 2 + 1)) := by
  unfold region
  rw [h.getClusterAddr_toNat hc, Nat.add_assoc, clusterOffset_succ]

theorem Fits.disjoint (h : v.Fits n) (hc : IsData n c) (hd : IsData n d) (hne : c ≠ d) :
    Disjoint (v.region c) (v.region d) := by
  have hnumber : c.toNat ≠ d.toNat := fun heq => hne (UInt64.toNat_inj.mp heq)
  have hc2 := hc.1
  have hd2 := hd.1
  rw [h.region_eq hc, h.region_eq hd, Set.Ico_disjoint_Ico]
  rcases Nat.lt_or_gt_of_ne hnumber with hlt | hlt
  · have hle := clusterOffset_mono (v := v) (show c.toNat - 2 + 1 ≤ d.toNat - 2 by omega)
    omega
  · have hle := clusterOffset_mono (v := v) (show d.toNat - 2 + 1 ≤ c.toNat - 2 by omega)
    omega

theorem Fits.inside (h : v.Fits n) (hc : IsData n c) : v.region c ⊆ v.image := by
  obtain ⟨hfirst, hlast⟩ := hc
  have hend := h.clusterOffset_le (show c.toNat - 2 + 1 ≤ n by omega)
  rw [h.region_eq ⟨hfirst, hlast⟩]
  apply Set.Ico_subset_Ico
  · omega
  · omega

/-- The cells of the FAT lie in front of the clusters. -/
theorem Fits.cell_le (h : v.Fits n) (hfats : 0 < v.bpb.numFats.toNat) {cluster : Nat} (hlast : cluster < n + 2) :
    v.fatOffset + 4 * cluster + 4 ≤ v.clusterOffset 0 := by
  have hroom := h.room hfats
  have hone : v.bpb.fatSize32.toNat * v.bpb.bytesPerSector.toNat ≤
      v.bpb.numFats.toNat * (v.bpb.fatSize32.toNat * v.bpb.bytesPerSector.toNat) := Nat.le_mul_of_pos_left _ hfats
  rw [clusterOffset_zero]
  omega

theorem Fits.apart (h : v.Fits n) (hfat : v.getFAT.toNat = v.bootVolumeImage.toNat + v.fatOffset)
    (hnone : v.bpb.numFats.toNat = 0 → n * v.bytesPerCluster.toNat ≤ 8) (hc : IsData n c) (hd : IsData n d) :
    Disjoint (v.region c) (v.fatEntry d) := by
  rw [h.region_eq hc]
  unfold fatEntry
  rw [hfat, Set.Ico_disjoint_Ico]
  by_cases hfats : v.bpb.numFats.toNat = 0
  · -- the clusters begin where the FAT would, and end in front of the cell of the first one
    have hsmall := hnone hfats
    have hlast := hc.2
    have hsecond := hd.1
    have hend := clusterOffset_mono (v := v) (show c.toNat - 2 + 1 ≤ n by have := hc.1; omega)
    rw [clusterOffset_eq n, clusterOffset_zero, hfats, Nat.zero_mul] at hend
    omega
  · -- all cells lie in front of all clusters
    have hentry := h.cell_le (Nat.pos_of_ne_zero hfats) hd.2
    have hbegin := clusterOffset_mono (v := v) (Nat.zero_le (c.toNat - 2))
    omega

/-- Without a FAT, the ninth byte of the clusters is in the cell of the first one. -/
theorem Fits.not_apart (h : v.Fits n) (hfat : v.getFAT.toNat = v.bootVolumeImage.toNat + v.fatOffset)
    (hnone : v.bpb.numFats.toNat = 0) (hlarge : 8 < n * v.bytesPerCluster.toNat) :
    ∃ c d, IsData n c ∧ IsData n d ∧ ¬ Disjoint (v.region c) (v.fatEntry d) := by
  have hpos : 0 < v.bytesPerCluster.toNat := Nat.pos_of_ne_zero fun hzero => by
    rw [hzero] at hlarge
    omega
  -- the clusters in front of the one that has the byte
  have hindex : 8 / v.bytesPerCluster.toNat < n := Nat.div_lt_of_lt_mul (by rwa [Nat.mul_comm] at hlarge)
  have hbegin := Nat.div_mul_le_self 8 v.bytesPerCluster.toNat
  have hend := Nat.lt_mul_div_succ 8 hpos
  have hdiv : 8 / v.bytesPerCluster.toNat ≤ 8 := Nat.div_le_self ..
  generalize 8 / v.bytesPerCluster.toNat = i at hindex hbegin hend hdiv
  obtain ⟨c, hc⟩ : ∃ c : UInt64, c.toNat = 2 + i :=
    ⟨UInt64.ofNat (2 + i), UInt64.toNat_ofNat_of_lt' (Nat.lt_of_le_of_lt (Nat.add_le_add_left hdiv 2) (by decide))⟩
  have hdata : IsData n c := ⟨by omega, by omega⟩
  refine ⟨c, 2, hdata, ⟨Nat.le_refl 2, show 2 < n + 2 by omega⟩, ?_⟩
  rw [Set.not_disjoint_iff]
  refine ⟨v.bootVolumeImage.toNat + v.fatOffset + 8, ?_, ?_⟩
  · rw [h.region_eq hdata, hc, Nat.add_sub_cancel_left, clusterOffset_eq i, clusterOffset_eq (i + 1),
      clusterOffset_zero, hnone, Nat.zero_mul, Nat.mul_comm (i + 1), Set.mem_Ico]
    omega
  · unfold fatEntry
    rw [hfat, Set.mem_Ico]
    show _ + 4 * 2 ≤ _ ∧ _ < _ + 4 * 2 + 4
    omega

end VolumeImage

open VolumeImage

/-- **When the volume has its layout.**  For every volume that fits its sectors: the clusters are apart from each other
and from their cells, inside the image and at the addresses of the numbers, exactly when the offset of the FAT is an
`int` and there is a FAT, or nothing to keep apart from it. -/
theorem volume_layout_iff {v : VolumeImage} {n : Nat} (h : v.Fits n) : v.Layout n ↔
    v.bpb.reservedSectorCount.toNat * v.bpb.bytesPerSector.toNat < 2 ^ 31 ∧
      (v.bpb.numFats.toNat = 0 →
        n * (v.bpb.bytesPerSector.toNat * v.bpb.sectorsPerCluster.toNat) ≤ 8) := by
  rw [← bytesPerCluster_toNat]
  constructor
  · intro hlayout
    refine ⟨h.getFAT_toNat_iff.mp hlayout.fat_eq, fun hnone => ?_⟩
    by_contra hlarge
    obtain ⟨c, d, hc, hd, hboth⟩ := h.not_apart hlayout.fat_eq hnone (Nat.lt_of_not_le hlarge)
    exact hboth (hlayout.apart c d hc hd)
  · intro hcondition
    have hfat := h.getFAT_toNat_iff.mpr hcondition.1
    exact {
      disjoint := fun c d hc hd hne => h.disjoint hc hd hne
      apart := fun c d hc hd => h.apart hfat hcondition.2 hc hd
      inside := fun c hc => h.inside hc
      bytes_eq := bytesPerCluster_toNat
      addr_eq := fun c hc => h.getClusterAddr_toNat hc
      fat_eq := hfat }

/-- A volume of 100 clusters of one sector. -/
def smallImage : VolumeImage where
  bpb := ⟨512, 1, 32, 2, 134, 1, 2⟩
  bootVolumeImage := 0x200000
  inSpace := by decide

theorem volume_layout_small : smallImage.Layout 100 :=
  (volume_layout_iff ⟨by decide, by decide⟩).mpr ⟨by decide, by decide⟩

/-- As many reserved sectors as there can be, of 48 KiB each. -/
def largeReserved : VolumeImage where
  bpb := ⟨0xC000, 1, 0xFFFF, 1, 0x10001, 1, 2⟩
  bootVolumeImage := 0x100000000
  inSpace := by decide

/-- The FAT is looked for in front of the image. -/
theorem volume_layout_large_reserved : largeReserved.Fits 1 ∧
    largeReserved.getFAT < largeReserved.bootVolumeImage ∧ ¬ largeReserved.Layout 1 := by
  have hfat : largeReserved.getFAT < largeReserved.bootVolumeImage := by decide
  refine ⟨⟨by decide, by decide⟩, hfat, ?_⟩
  intro h
  have heq := h.fat_eq
  have hlt := UInt64.lt_iff_toNat_lt.mp hfat
  omega

namespace VolumeImage

/-! ## The volume in the image -/

/-- What the bytes of the memory mean; the cells of the FAT and the clusters are those of the data area. -/
def volume (v : VolumeImage) (n : Nat) (memory : Nat → UInt8) : Volume where
  bytesPerCluster := v.bytesPerCluster.toNat
  numFatEntries := n + 2
  rootCluster := v.bpb.rootCluster.toNat
  fat cluster := if cluster < n + 2 then readLE memory (v.getFAT.toNat + 4 * cluster) 4 else 0
  data cluster k := if (2 ≤ cluster ∧ cluster < n + 2) ∧ k < v.bytesPerCluster.toNat then
    memory ((v.getClusterAddr (UInt64.ofNat cluster)).toNat + k) else 0

variable {v : VolumeImage} {n cluster : Nat} {c : UInt64} {memory : Nat → UInt8}

/-- Every cluster has a number of 64 bits. -/
theorem Fits.exists_data (h : v.Fits n) (hfats : 0 < v.bpb.numFats.toNat) (hfirst : 2 ≤ cluster)
    (hlast : cluster < n + 2) : ∃ c, UInt64.ofNat cluster = c ∧ c.toNat = cluster ∧ IsData n c := by
  have hcell := h.cell_le hfats hlast
  have hend := h.clusterOffset_le (Nat.zero_le n)
  have hin := v.inSpace
  have hnumber : (UInt64.ofNat cluster).toNat = cluster := by
    apply UInt64.toNat_ofNat_of_lt'
    show cluster < 2 ^ 64
    omega
  refine ⟨_, rfl, hnumber, ?_⟩
  unfold IsData
  rw [hnumber]
  exact ⟨hfirst, hlast⟩

/-- A byte of a cluster is behind the FAT. -/
theorem Layout.cell_lt (hlayout : v.Layout n) (h : v.Fits n) (hfats : 0 < v.bpb.numFats.toNat)
    (hlast : cluster < n + 2) (hc : IsData n c) (k : Nat) :
    v.getFAT.toNat + 4 * cluster + 4 ≤ (v.getClusterAddr c).toNat + k := by
  have hcell := h.cell_le hfats hlast
  have hbegin := clusterOffset_mono (v := v) (Nat.zero_le (c.toNat - 2))
  rw [hlayout.fat_eq, hlayout.addr_eq c hc]
  omega

/-- A write to a cell of the FAT is one to the FAT of the volume. -/
theorem Layout.volume_setFAT (hlayout : v.Layout n) (h : v.Fits n) (hfats : 0 < v.bpb.numFats.toNat)
    (hlast : cluster < n + 2) (value : Nat) :
    v.volume n (writeLE memory (v.getFAT.toNat + 4 * cluster) 4 value) =
      (v.volume n memory).setFAT cluster value := by
  unfold volume Volume.setFAT
  congr 1
  · funext other
    dsimp only
    by_cases hother : other = cluster
    · rw [hother, Function.update_self, if_pos hlast]
      exact readLE_writeLE ..
    · -- the cells of two clusters are four bytes apart
      rw [Function.update_of_ne hother]
      congr 1
      apply readLE_writeLE_of_disjoint
      omega
  · funext other k
    dsimp only
    split
    · rename_i hin
      obtain ⟨c, hof, hnumber, hc⟩ := h.exists_data hfats hin.1.1 hin.1.2
      rw [hof]
      exact writeLE_of_le (hlayout.cell_lt h hfats hlast hc k)
    · rfl

/-- A write to a byte of a cluster is one to the data of the volume. -/
theorem Layout.volume_setCluster (hlayout : v.Layout n) (h : v.Fits n) (hfats : 0 < v.bpb.numFats.toNat)
    (hc : IsData n c) {k : Nat} (hk : k < v.bytesPerCluster.toNat) (byte : UInt8) :
    v.volume n (Function.update memory ((v.getClusterAddr c).toNat + k) byte) =
      (v.volume n memory).setCluster c.toNat (Function.update ((v.volume n memory).data c.toNat) k byte) := by
  unfold Volume.setCluster
  rw [volume, volume, Volume.mk.injEq]
  refine ⟨rfl, rfl, rfl, ?_, ?_⟩
  · funext other
    dsimp only
    split
    · rename_i hlast
      apply readLE_congr
      intro a _ hend
      have hcell := hlayout.cell_lt h hfats hlast hc k
      apply Function.update_of_ne
      omega
    · rfl
  · funext other i
    dsimp only
    by_cases hother : other = c.toNat
    · rw [hother, Function.update_self, UInt64.ofNat_toNat]
      by_cases hi : i = k
      · rw [hi, Function.update_self, if_pos ⟨hc, hk⟩, Function.update_self]
      · have hne : (v.getClusterAddr c).toNat + i ≠ (v.getClusterAddr c).toNat + k := by omega
        rw [Function.update_of_ne hi, Function.update_of_ne hne]
    · rw [Function.update_of_ne hother]
      split
      · rename_i hin
        obtain ⟨d, hof, hnumber, hd⟩ := h.exists_data hfats hin.1.1 hin.1.2
        rw [hof]
        apply Function.update_of_ne
        -- the byte would be in both clusters
        intro heq
        have hdc : d ≠ c := by
          rintro rfl
          exact hother hnumber.symm
        have hboth := Set.disjoint_left.mp (hlayout.disjoint d c hd hc hdc)
        refine hboth ⟨Nat.le_add_right _ i, Nat.add_lt_add_left hin.2 _⟩ ?_
        rw [heq]
        exact ⟨Nat.le_add_right _ k, Nat.add_lt_add_left hk _⟩
      · rfl

end VolumeImage

end MikanSaos
