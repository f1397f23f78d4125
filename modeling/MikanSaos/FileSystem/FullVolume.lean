import MikanSaos.FileSystem.CreateEntry
import MikanSaos.FileSystem.WriteFrame

/-!
# FullVolume — allocating more clusters than are free

The loops that look for a free cluster have no bound: where the FAT has none left, they go on behind its
end, and no operation comes to report a failure.
-/

open Reasoning

namespace MikanSaos

namespace Stream

variable {b : Nat} {buf : Nat → UInt8} {len : Nat} {s s' : Stream}

/-- The cursor and the number of clusters are the same. -/
structure SameShape (s s' : Stream) : Prop where
  clusters : s'.clusters = s.clusters
  index : s'.index = s.index
  offset : s'.offset = s.offset

theorem SameShape.advance (h : SameShape s s') (b left : Nat) :
    SameShape (s.advance b left) (s'.advance b left) := by
  -- all that `advance` reads is the same
  unfold Stream.advance
  rw [h.clusters, h.index, h.offset]
  split
  · split
    · exact ⟨rfl, rfl, rfl⟩
    · exact ⟨rfl, rfl, rfl⟩
  · exact h

theorem SameShape.put (h : SameShape s s') (b : Nat) (src : Nat → UInt8) (n : Nat) :
    SameShape (s.put b src n) (s'.put b src n) :=
  ⟨h.clusters, h.index, congrArg (· + n) h.offset⟩

/-- What the file holds does not matter for the clusters that a `Write` takes. -/
theorem SameShape.writeLoop (h : SameShape s s') (fuel total : Nat) :
    (writeLoop b buf len fuel total s').2.clusters = (writeLoop b buf len fuel total s).2.clusters := by
  induction fuel generalizing total s s' with
  | zero => exact h.clusters
  | succ fuel ih =>
    rw [Stream.writeLoop, Stream.writeLoop]
    split
    · have hadv := h.advance b (len - total)
      dsimp only
      rw [hadv.offset]
      exact ih (hadv.put b _ _) _
    · exact h.clusters

variable (buf len) in
/-- Enough rounds count all bytes. -/
theorem le_writeLoop (hb : 0 < b) (fuel total : Nat) (h : s.Ok b) (hfuel : len ≤ total + fuel) :
    len ≤ (writeLoop b buf len fuel total s).1 := by
  induction fuel generalizing total s with
  | zero => exact hfuel
  | succ fuel ih =>
    rw [Stream.writeLoop]
    split
    · obtain ⟨hok, hoff⟩ := h.advance hb (show 0 < len - total by omega)
      exact ih _ (hok.put _ (by omega)) (by omega)
    · dsimp only
      omega

end Stream

namespace Volume

variable {v : Volume} {c n len : Nat} {l old : List Nat} {fd : FileDescriptor} {buf : Nat → UInt8}
  {path filename : List UInt8} {s s' : Stream}

/-- `CreateFile` reports that there is no space, and leaves the FAT and the entries as they were. -/
def RefusesCreate (v : Volume) (path : List UInt8) : Prop :=
  ∃ v', v.createFile path = some (⟨none, .kNoEnoughMemory⟩, v') ∧ v'.fat = v.fat ∧
    ∀ p, v.Slot v.DirCluster p → SameEntry v v' p fun _ => False

/-- `Write` reports that it has not written all bytes, and leaves the FAT and the other entries as they
were. -/
def RefusesWrite (v : Volume) (fd : FileDescriptor) (buf : Nat → UInt8) (len : Nat) : Prop :=
  ∃ n fd' v', fd.write v buf len = some (n, fd', v') ∧ n < len ∧ v'.fat = v.fat ∧
    ∀ p, p ≠ fd.fatEntry → v.Slot v.DirCluster p → SameEntry v v' p fun _ => False

/-- The `Write` adds `n` clusters to the clusters `old` of the file, if there are as many. -/
def WriteNeeds (v : Volume) (fd : FileDescriptor) (old : List Nat) (buf : Nat → UInt8) (len n : Nat) :
    Prop :=
  ∃ s, v.StartsAt fd old len s ∧
    (Stream.writeLoop v.bytesPerCluster buf len len 0 s).2.clusters = old.length + n

theorem StartsAt.sameShape (h : v.StartsAt fd old len s) (h' : v.StartsAt fd old len s')
    (hold : v.FileChain fd.fatEntry old) : Stream.SameShape s s' := by
  refine ⟨h'.clusters.trans h.clusters.symm, ?_, h'.offset.trans h.offset.symm⟩
  have hin : ∀ {i : Nat}, old[i]? = some fd.wrCluster → fd.wrCluster ≠ 0 ∧ old.Nodup := by
    intro i hi
    have hl := hold.of_mem (List.mem_of_getElem? hi)
    have hcluster := (hl.valid _ (List.mem_of_getElem? hi)).1.1
    exact ⟨by omega, hl.nodup⟩
  rcases h.index with ⟨hzero, hi⟩ | hi
  · rcases h'.index with ⟨-, hi'⟩ | hi'
    · rw [hi, hi']
    · exact absurd hzero (hin hi').1
  · rcases h'.index with ⟨hzero, -⟩ | hi'
    · exact absurd hzero (hin hi).1
    -- a cluster is only once in the chain
    · obtain ⟨hlt, hget⟩ := List.getElem?_eq_some_iff.mp hi
      obtain ⟨hlt', hget'⟩ := List.getElem?_eq_some_iff.mp hi'
      exact ((hin hi).2.getElem_inj_iff.mp (hget'.trans hget.symm))

/-- A `Write` of more bytes than the clusters of the file and `m` more have room for needs more than `m`. -/
theorem StartsAt.writeNeeds (h : v.StartsAt fd old len s) (hb : 0 < v.bytesPerCluster) {m : Nat}
    (hbytes : (old.length + m) * v.bytesPerCluster < s.position v.bytesPerCluster + len) :
    ∃ n, m < n ∧ v.WriteNeeds fd old buf len n := by
  obtain ⟨hmoved, hok⟩ := Stream.writeLoop_position buf len hb len 0 h.ok
  have htotal := Stream.le_writeLoop buf len hb len 0 h.ok (by omega)
  -- the bytes that have been written fit the clusters that there are at the end
  have hroom := hok.position_le
  have hclusters : old.length + m < (Stream.writeLoop v.bytesPerCluster buf len len 0 s).2.clusters :=
    Nat.lt_of_mul_lt_mul_right (a := v.bytesPerCluster) (by omega)
  exact ⟨_, by omega, s, h, (Nat.add_sub_of_le (by omega)).symm⟩

/-- A directory without an unused slot and a FAT without a free cluster. -/
theorem createFile_full (hmax : v.numFatEntries ≤ kMaxFatEntries)
    (hparent : v.parentDirectory path = some (.ok (c, filename))) (hl : v.ClusterChain c l)
    (hslots : ∀ p ∈ v.slotsOf l, ¬ v.isUnused p) (hfree : v.freeClusters = []) :
    v.createFile path = none := by
  have hlast := List.getLast?_eq_some_getLast hl.chain.ne_nil
  rw [createFile, hparent, Option.bind_some]
  dsimp only
  rw [createIn, allocateEntry_eq hmax hl hlast (Nat.le_succ_of_le hl.length_le),
    List.find?_eq_none.mpr hslots, hfree]
  rfl

theorem write_full (hwell : v.WellFormed) (hfile : v.IsFile v.DirCluster fd.fatEntry)
    (hold : v.FileChain fd.fatEntry old) (hcursor : fd.wrCluster = 0 ∨ fd.wrCluster ∈ old)
    (hoff : fd.wrClusterOff ≤ v.bytesPerCluster) (hneeds : v.WriteNeeds fd old buf len n)
    (hfree : v.freeClusters.length < n) : fd.write v buf len = none := by
  obtain ⟨s, hstart, hclusters⟩ := hneeds
  obtain ⟨s₀, hstart₀, hrun⟩ := write_from hwell.layout hfile hoff hold hcursor buf len
  have hsame : (Stream.writeLoop v.bytesPerCluster buf len len 0 s₀).2.clusters = old.length + n :=
    ((hstart.sameShape hstart₀ hold).writeLoop len 0).trans hclusters
  -- the stream needs more clusters than the file's and the free ones
  apply (hrun _ _ rfl).1
  rw [hsame, List.length_append]
  omega

/-- **On a full volume.**  No `CreateFile` and no `Write` that needs more clusters than are free comes to
report it: the search for a free cluster leaves the FAT. -/
theorem full_volume_never (hwell : v.WellFormed) :
    (∀ path c filename l, v.parentDirectory path = some (.ok (c, filename)) → v.ClusterChain c l →
      (∀ p ∈ v.slotsOf l, ¬ v.isUnused p) → v.freeClusters = [] → ¬ v.RefusesCreate path) ∧
    ∀ (fd : FileDescriptor) old buf len, v.IsFile v.DirCluster fd.fatEntry →
      v.FileChain fd.fatEntry old → (fd.wrCluster = 0 ∨ fd.wrCluster ∈ old) →
      fd.wrClusterOff ≤ v.bytesPerCluster →
      ((∃ n, v.freeClusters.length < n ∧ v.WriteNeeds fd old buf len n) ∨
        ∃ s, v.StartsAt fd old len s ∧ (old.length + v.freeClusters.length) * v.bytesPerCluster <
          s.position v.bytesPerCluster + len) →
      ¬ v.RefusesWrite fd buf len := by
  have hb : 0 < v.bytesPerCluster := Nat.lt_of_lt_of_le (by decide) hwell.formatted.bytesPerCluster
  constructor
  · rintro path c filename l hparent hl hslots hfree ⟨v', hcreate, -⟩
    rw [createFile_full hwell.formatted.numFatEntries hparent hl hslots hfree] at hcreate
    cases hcreate
  · rintro fd old buf len hfile hold hcursor hoff hmore ⟨n, fd', v', hwrite, -⟩
    obtain ⟨n, hfree, hneeds⟩ : ∃ n, v.freeClusters.length < n ∧ v.WriteNeeds fd old buf len n := by
      rcases hmore with hneeds | ⟨s, hstart, hbytes⟩
      · exact hneeds
      · exact hstart.writeNeeds hb hbytes
    rw [write_full hwell hfile hold hcursor hoff hneeds hfree] at hwrite
    cases hwrite

end Volume

open Volume

/-- A volume with one file "A" and no room for anything else. -/
def fullVolume : Volume := { oneFileVolume with numFatEntries := 4 }

theorem fullVolume_root : fullVolume.ClusterChain 2 [2] := ⟨.last (by decide), by decide⟩

theorem fullVolume_wellFormed : fullVolume.WellFormed := by
  have hslot : ∀ p, fullVolume.Slot (· ∈ [2]) p → p = ⟨2, 0⟩ := by
    rintro ⟨c, i⟩ ⟨hc, hi⟩
    obtain rfl : c = 2 := List.mem_singleton.mp hc
    obtain rfl : i = 0 := Nat.lt_one_iff.mp hi
    rfl
  apply wellFormed_of_files ⟨by decide, by decide, .inr (by decide)⟩ fullVolume_root
  · intro p hp _
    obtain rfl := hslot p hp
    exact ⟨by decide, [3], ⟨.last (by decide), by decide⟩, List.singleton_disjoint.mpr (by decide)⟩
  · intro p q hp hq hne
    exact absurd ((hslot p hp).trans (hslot q hq).symm) hne

theorem fullVolume_isFile : fullVolume.IsFile fullVolume.DirCluster ⟨2, 0⟩ :=
  ⟨⟨.root fullVolume_root (by decide), by decide⟩, by decide, by decide, by decide, by decide⟩

theorem full_volume_never_one_file :
    ¬ fullVolume.RefusesCreate (bytesOf "B") ∧
      ¬ fullVolume.RefusesWrite fullDescriptor (fun _ => 0x2a) 1 := by
  obtain ⟨hcreate, hwrite⟩ := full_volume_never fullVolume_wellFormed
  refine ⟨hcreate _ 2 (bytesOf "B") [2] rfl fullVolume_root (by decide) rfl, ?_⟩
  exact hwrite fullDescriptor [3] _ 1 fullVolume_isFile (.inr ⟨.last (by decide), by decide⟩)
    (.inr (by decide)) (by decide) (.inr ⟨⟨1, 0, 32, fun _ => 0⟩, ⟨⟨by decide, by decide⟩, rfl, rfl,
      .inr rfl⟩, by decide⟩)

/-- The root directory has its one slot taken, and the only file cluster is full. -/
theorem full_volume_leaves_fat :
    fullVolume.WellFormed ∧ fullVolume.freeClusters = [] ∧ fullVolume.createFile (bytesOf "B") = none ∧
      fullDescriptor.write fullVolume (fun _ => 0x2a) 1 = none :=
  ⟨fullVolume_wellFormed, rfl, rfl, rfl⟩

end MikanSaos
