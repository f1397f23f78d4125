import MikanSaos.FileSystem.WriteStream
import MikanSaos.FileSystem.Entries

/-!
# DescriptorStream — a descriptor that follows a stream

`Write` on a descriptor of a file with a chain, and the first `Write` to an empty file.
-/

open Reasoning

namespace MikanSaos

open Volume

namespace Volume

variable {v v' : Volume} {area : List Nat} {p : EntryPtr}

/-- What `Write` changes, apart from the clusters of `area`: the last twelve bytes of the entry. -/
structure Written (v v' : Volume) (area : List Nat) (p : EntryPtr) : Prop where
  bytesPerCluster : v'.bytesPerCluster = v.bytesPerCluster
  numFatEntries : v'.numFatEntries = v.numFatEntries
  rootCluster : v'.rootCluster = v.rootCluster
  fat : ∀ x ∉ area, v'.fat x = v.fat x
  entries : ∀ q : EntryPtr, q.cluster ∉ area → SameEntry v v' q fun k => q = p ∧ 20 ≤ k

theorem Written.of_outside (h : Outside v v' area) (p : EntryPtr) : Written v v' area p :=
  ⟨h.1, h.2, h.3, h.4, fun _ hq => SameEntry.of_data (h.5 _ hq) _⟩

theorem Written.trans {v'' : Volume} (h : Written v v' area p) (h' : Written v' v'' area p) :
    Written v v'' area p :=
  ⟨h'.1.trans h.1, h'.2.trans h.2, h'.3.trans h.3, fun x hx => (h'.4 x hx).trans (h.4 x hx),
    fun q hq => ((h.5 q hq).trans (h'.5 q hq)).mono fun _ hk => hk.elim id id⟩

theorem written_setFileSize (v : Volume) (area : List Nat) (p : EntryPtr) (size : Nat) :
    Written v (v.setFileSize p size) area p :=
  ⟨rfl, rfl, rfl, fun _ _ => rfl, fun q _ =>
    (sameEntry_setFileSize v p size q).mono fun _ hk => ⟨hk.1, by omega⟩⟩

theorem written_setFirstCluster (v : Volume) (area : List Nat) (p : EntryPtr) (c : Nat) :
    Written v (v.setFirstCluster p c) area p :=
  ⟨rfl, rfl, rfl, fun _ _ => rfl, fun q _ =>
    (sameEntry_setFirstCluster v p c q).mono fun _ hk => ⟨hk.1, hk.2.1⟩⟩

end Volume

/-- The descriptor's cursor is that of the stream stored in its file. -/
structure Follows (fd : FileDescriptor) (v : Volume) (b first : Nat) (area : List Nat)
    (s : Stream) : Prop where
  stores : v.Stores b first area s
  entry : fd.fatEntry.cluster ∉ area
  cluster : area[s.index]? = some fd.wrCluster
  offset : fd.wrClusterOff = s.offset

/-- A `Write` that returned `n` and left the stream `s'`. -/
structure AfterWrite (fd : FileDescriptor) (v : Volume) (n : Nat) (fd' : FileDescriptor)
    (v' : Volume) (b first : Nat) (area : List Nat) (s' : Stream) : Prop where
  fatEntry : fd'.fatEntry = fd.fatEntry
  wrOff : fd'.wrOff = fd.wrOff + n
  follows : Follows fd' v' b first area s'
  written : Written v v' area fd.fatEntry
  fileSize : v'.fileSize fd.fatEntry = (fd.wrOff + n) % 2 ^ 32

namespace FileDescriptor

variable {fd : FileDescriptor} {v v₀ : Volume} {b first x len n : Nat} {area : List Nat}
  {buf : Nat → UInt8} {s s' : Stream}

/-- `Write` once the cluster to write to is known. -/
theorem write_of_start (hstart : v.startWrite fd len = some (x, v₀))
    (hst : v₀.Stores b first area s) (hp : fd.fatEntry.cluster ∉ area)
    (hx : area[s.index]? = some x) (hoff : fd.wrClusterOff = s.offset)
    (hrun : Stream.writeLoop b buf len len 0 s = (n, s')) :
    (area.length < s'.clusters → fd.write v buf len = none) ∧
    (s'.clusters ≤ area.length → ∃ fd' v', fd.write v buf len = some (n, fd', v') ∧
      AfterWrite fd v₀ n fd' v' b first area s' ∧
      v'.firstCluster fd.fatEntry = v₀.firstCluster fd.fatEntry) := by
  obtain ⟨hfull, hroom⟩ := hst.writeLoop buf len hx (by omega) hrun
  rw [← hoff] at hfull hroom
  unfold write
  rw [hstart, Option.bind_some]
  dsimp only
  refine ⟨fun h => by rw [hfull h, Option.map_none], fun h => ?_⟩
  obtain ⟨x', v₁, hloop, hx', hout, hst'⟩ := hroom h
  have hsame : SameEntry v₀ v₁ fd.fatEntry fun _ => False := SameEntry.of_data (hout.data _ hp) _
  have hsize := hsame.trans (sameEntry_setFileSize v₁ fd.fatEntry (fd.wrOff + n) fd.fatEntry)
  have hfirst := firstCluster_congr hsize fun k _ hk hc => hc.elim id fun h28 => by omega
  rw [hloop, Option.map_some]
  exact ⟨_, _, rfl, ⟨rfl, rfl, ⟨hst'.setCluster hp _, hp, hx', rfl⟩,
    (Written.of_outside hout _).trans (written_setFileSize v₁ area fd.fatEntry _),
    fileSize_setFileSize _ _ _⟩, hfirst⟩

theorem startWrite_of_ne_zero (h : fd.wrCluster ≠ 0) :
    v.startWrite fd len = some (fd.wrCluster, v) := by
  unfold startWrite
  rw [if_neg h]

/-- Every further `Write` carries on where the last one stopped. -/
theorem write_follows (h : Follows fd v b first area s)
    (hrun : Stream.writeLoop b buf len len 0 s = (n, s')) :
    (area.length < s'.clusters → fd.write v buf len = none) ∧
    (s'.clusters ≤ area.length → ∃ fd' v', fd.write v buf len = some (n, fd', v') ∧
      AfterWrite fd v n fd' v' b first area s' ∧
      v'.firstCluster fd.fatEntry = v.firstCluster fd.fatEntry) := by
  have hcluster := (h.stores.isCluster h.cluster).1
  exact write_of_start (startWrite_of_ne_zero (by omega)) h.stores h.entry h.cluster h.offset hrun

/-- The first `Write` to an empty file makes its chain. -/
theorem write_empty (fd : FileDescriptor) (hb : 0 < v.bytesPerCluster)
    (hmax : v.numFatEntries ≤ kMaxFatEntries) (hp : fd.fatEntry.cluster ∉ v.freeClusters)
    (hfirst : v.firstCluster fd.fatEntry = 0) (hcluster : fd.wrCluster = 0)
    (hoff : fd.wrClusterOff ≤ v.bytesPerCluster) {content : Nat → UInt8}
    (hcontent : v.Contents v.bytesPerCluster v.freeClusters content)
    (hrun : Stream.writeLoop v.bytesPerCluster buf len len 0
      { Stream.start v.bytesPerCluster content len with offset := fd.wrClusterOff } = (n, s')) :
    (v.freeClusters.length < s'.clusters → fd.write v buf len = none) ∧
    (s'.clusters ≤ v.freeClusters.length → ∃ x fd' v', fd.write v buf len = some (n, fd', v') ∧
      AfterWrite fd v n fd' v' v.bytesPerCluster x v.freeClusters s' ∧
      v'.firstCluster fd.fatEntry = x) := by
  have hgrow := Stream.writeLoop_clusters (b := v.bytesPerCluster) buf len len 0
    { Stream.start v.bytesPerCluster content len with offset := fd.wrClusterOff }
  rw [hrun] at hgrow
  dsimp only at hgrow
  obtain ⟨hnone, hsome⟩ := allocate_stores hb hmax hcontent len
  have hstart : v.startWrite fd len = (v.allocateClusterChain (v.numCluster len)).map
      fun r => (r.1, r.2.setFirstCluster fd.fatEntry r.1) := by
    unfold startWrite
    rw [if_pos hcluster, if_neg (not_not.mpr hfirst)]
  by_cases hmade : (Stream.start v.bytesPerCluster content len).clusters ≤ v.freeClusters.length
  · obtain ⟨x, v₁, heq, hx, hout, hst⟩ := hsome hmade
    rw [heq, Option.map_some] at hstart
    have hst' : (v₁.setFirstCluster fd.fatEntry x).Stores v.bytesPerCluster x v.freeClusters
        { Stream.start v.bytesPerCluster content len with offset := fd.wrClusterOff } :=
      ((hst.setCluster hp _).setCluster hp _).seek hoff
    have hmade' : Written v (v₁.setFirstCluster fd.fatEntry x) v.freeClusters fd.fatEntry :=
      (Written.of_outside hout _).trans (written_setFirstCluster v₁ _ _ x)
    have hxlt := (mem_freeClusters.mp (List.mem_of_getElem? hx)).1.2
    unfold kMaxFatEntries at hmax
    obtain ⟨hfull, hroom⟩ := write_of_start hstart hst' hp hx rfl hrun
    refine ⟨hfull, fun h => ?_⟩
    obtain ⟨fd', v', hwrite, hafter, hfirst'⟩ := hroom h
    rw [firstCluster_setFirstCluster v₁ fd.fatEntry (c := x) (by omega)] at hfirst'
    exact ⟨x, fd', v', hwrite, ⟨hafter.1, hafter.2, hafter.3, hmade'.trans hafter.4, hafter.5⟩,
      hfirst'⟩
  · rw [hnone (by omega), Option.map_none] at hstart
    refine ⟨fun _ => ?_, fun h => absurd h (by omega)⟩
    unfold write
    rw [hstart, Option.bind_none]

end FileDescriptor

end MikanSaos
