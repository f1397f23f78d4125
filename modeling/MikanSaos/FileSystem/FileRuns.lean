import MikanSaos.FileSystem.PathLookup
import MikanSaos.FileSystem.DescriptorStream
import MikanSaos.Reasoning.Reach

/-!
# FileRuns — runs of `CreateFile`, `Write` and `DeleteFile` on one volume

Every operation either extends a directory by a cleared cluster or changes the slot and the chain of
one file; `Layout.extendDirectory` and `FileChange.layout` say that both keep the layout.
-/

open Reasoning

namespace MikanSaos

namespace Volume

/-- A slot that holds a file: in use, and neither a directory nor a part of a long name. -/
structure IsFile (v : Volume) (dir : Nat → Prop) (p : EntryPtr) : Prop where
  slot : v.Slot dir p
  name_ne_zero : v.entryByte p 0 ≠ 0
  name_ne_deleted : v.entryByte p 0 ≠ kDeleted
  not_directory : v.attr p ≠ Attribute.kDirectory.code
  not_longName : v.attr p ≠ Attribute.kLongName.code

/-- A descriptor of a file, with its cursor at the start or in the chain. -/
structure OpenFile (v : Volume) (dir : Nat → Prop) (fd : FileDescriptor) : Prop where
  file : v.IsFile dir fd.fatEntry
  offset : fd.wrClusterOff ≤ v.bytesPerCluster
  cursor : fd.wrCluster = 0 ∧ fd.wrClusterOff = 0 ∨
    v.firstCluster fd.fatEntry ≠ 0 ∧
      ∃ l, v.ClusterChain (v.firstCluster fd.fatEntry) l ∧ fd.wrCluster ∈ l

variable {v v' : Volume} {dir dir' : Nat → Prop} {p : EntryPtr} {old new : List Nat}
  {fd : FileDescriptor}

theorem IsFile.isLive (h : v.IsFile dir p) (hfirst : v.firstCluster p ≠ 0) : v.IsLive p :=
  ⟨h.2, h.3, hfirst, h.5, fun hd => h.4 hd.1⟩

/-- A file of a well-formed volume has a chain, or no cluster. -/
theorem IsFile.fileChain (h : v.IsFile dir p) (hlayout : v.Layout dir) : ∃ l, v.FileChain p l := by
  by_cases hfirst : v.firstCluster p = 0
  · exact ⟨[], .inl ⟨hfirst, rfl⟩⟩
  · have howns : v.Owns dir (some p) (v.firstCluster p) := ⟨h.slot, h.isLive hfirst, rfl⟩
    obtain ⟨l, hl⟩ := hlayout.exists_chain howns
    exact ⟨l, .inr hl⟩

theorem IsFile.congr {changed : Nat → Prop} (h : v.IsFile dir p) (hsame : SameEntry v v' p changed)
    (hname : ¬ changed 0) (hattr : ¬ changed 11) (hslot : v'.Slot dir' p) : v'.IsFile dir' p := by
  have hzero : v'.entryByte p 0 = v.entryByte p 0 := hsame 0 (by decide) hname
  have hattr' := attr_congr hsame hattr
  exact ⟨hslot, hzero ▸ h.2, hzero ▸ h.3, hattr' ▸ h.4, hattr' ▸ h.5⟩

/-- A descriptor stays open while its entry and its chain stay as they are. -/
theorem OpenFile.congr (h : v.OpenFile dir fd) (hsame : SameEntry v v' fd.fatEntry fun _ => False)
    (hbytes : v'.bytesPerCluster = v.bytesPerCluster)
    (hdir : dir fd.fatEntry.cluster → dir' fd.fatEntry.cluster)
    (hchain : ∀ l, v.IsLive fd.fatEntry → v.ClusterChain (v.firstCluster fd.fatEntry) l →
      v'.ClusterChain (v.firstCluster fd.fatEntry) l) : v'.OpenFile dir' fd := by
  have hslot : v'.Slot dir' fd.fatEntry :=
    (slot_congr hbytes).mpr ⟨hdir h.file.slot.1, h.file.slot.2⟩
  have hfirst : v'.firstCluster fd.fatEntry = v.firstCluster fd.fatEntry :=
    firstCluster_congr hsame fun _ _ _ => id
  refine ⟨h.file.congr hsame id id hslot, hbytes ▸ h.offset, ?_⟩
  rw [hfirst]
  rcases h.cursor with hstart | ⟨hne, l, hl, hmem⟩
  · exact .inl hstart
  · exact .inr ⟨hne, l, hchain l (h.file.isLive hne) hl, hmem⟩

/-- Descriptors of other files are not affected by a change of one file. -/
theorem FileChange.openFile (hc : FileChange v v' dir p old new) (h : v.Layout dir)
    (hfd : v.OpenFile dir fd) (hne : fd.fatEntry ≠ p) : v'.OpenFile dir fd := by
  apply hfd.congr (hc.entries _ hne hfd.file.slot) hc.bytesPerCluster id
  intro l hlive hl
  have hkeep := h.family.keeps hc.replaces (fun he => hne (Option.some.inj he))
    ⟨hfd.file.slot, hlive, rfl⟩ hl.chain
  exact ⟨hkeep.1, hkeep.2⟩

/-! ## `Write` -/

/-- A directory cluster is neither one of a file nor a free one. -/
theorem IsFile.notMem_area (hfile : v.IsFile dir p) (h : v.Layout dir) (hold : v.FileChain p old)
    {x : Nat} (hx : dir x) : x ∉ old ++ v.freeClusters := by
  intro hmem
  rcases List.mem_append.mp hmem with hmem | hmem
  · have hl := hold.of_mem hmem
    exact h.not_dir_of_file ⟨hfile.slot, hfile.isLive hl.ne_zero, rfl⟩ hfile.not_directory hl hmem hx
  · exact h.not_free hx hmem

/-- The chain of a file that was written to has grown into the free clusters. -/
theorem Written.fileChange {first : Nat} {s : Stream} (hw : Written v v' (old ++ v.freeClusters) p)
    (h : v.Layout dir) (hfile : v.IsFile dir p) (hold : v.FileChain p old)
    (hst : v'.Stores v.bytesPerCluster first (old ++ v.freeClusters) s)
    (hfirst : v'.firstCluster p = first) :
    FileChange v v' dir p old ((old ++ v.freeClusters).take s.clusters) := by
  -- the clusters of directories are not written to
  have hdir : ∀ x, dir x → x ∉ old ++ v.freeClusters := fun x => hfile.notMem_area h hold
  have hself := hw.entries p (hdir _ hfile.slot.1)
  have hzero : 0 ∉ old ++ v.freeClusters := by
    intro hmem
    rcases List.mem_append.mp hmem with hmem | hmem
    · have hcluster := ((hold.of_mem hmem).valid 0 hmem).1.1
      omega
    · have hcluster := (mem_freeClusters.mp hmem).1.1
      omega
  refine ⟨⟨hw.bytesPerCluster ▸ h.formatted.1, hw.numFatEntries ▸ h.formatted.2, ?_⟩,
    hw.bytesPerCluster, hw.numFatEntries, hw.rootCluster, ?_, ?_, ?_, fun _ => hfile.not_directory,
    ?_, ?_, fun hlive => hold.clusterChain hlive.firstCluster_ne_zero, ?_⟩
  · rw [hw.fat 0 hzero, hw.numFatEntries]
    exact h.formatted.3
  · intro q hq hslot
    exact (hw.entries q (hdir _ hslot.1)).mono fun _ hk => hq hk.1
  · intro x hx hxo _
    apply hw.fat
    intro hmem
    exact hx.2 (mem_freeClusters.mp ((List.mem_append.mp hmem).resolve_left hxo)).2
  · intro x hx
    rcases List.mem_append.mp (List.take_subset _ _ hx) with hx | hx
    · exact .inl hx
    · exact .inr fun hu => hu.2 (mem_freeClusters.mp hx).2
  · intro _
    rw [attr_congr hself (by omega)]
    exact hfile.not_directory
  · by_cases hne : old = []
    · exact .inl hne
    · exact .inr ⟨hfile.slot, hfile.isLive fun hz => hne (hold.eq_nil hz)⟩
  · intro _
    rw [hfirst]
    exact hst.chain

/-- The stream that a `Write` of `len` bytes starts from, on a file with the clusters `old`. -/
structure StartsAt (v : Volume) (fd : FileDescriptor) (old : List Nat) (len : Nat) (s : Stream) :
    Prop where
  ok : s.Ok v.bytesPerCluster
  offset : s.offset = fd.wrClusterOff
  clusters : s.clusters = if old = [] then max 1 (clustersFor v.bytesPerCluster len) else old.length
  index : fd.wrCluster = 0 ∧ s.index = 0 ∨ old[s.index]? = some fd.wrCluster

/-- `Write` to a file with the clusters `old` is a run of a stream over them and the free clusters: it
fails if the stream needs more clusters than there are. -/
theorem write_from (h : v.Layout dir) (hfile : v.IsFile dir fd.fatEntry)
    (hoff : fd.wrClusterOff ≤ v.bytesPerCluster) (hold : v.FileChain fd.fatEntry old)
    (hcursor : fd.wrCluster = 0 ∨ fd.wrCluster ∈ old) (buf : Nat → UInt8) (len : Nat) :
    ∃ s₀, v.StartsAt fd old len s₀ ∧ ∀ n s,
      Stream.writeLoop v.bytesPerCluster buf len len 0 s₀ = (n, s) →
      ((old ++ v.freeClusters).length < s.clusters → fd.write v buf len = none) ∧
      (s.clusters ≤ (old ++ v.freeClusters).length → ∃ fd' v',
        fd.write v buf len = some (n, fd', v') ∧
        AfterWrite fd v n fd' v' v.bytesPerCluster (v'.firstCluster fd.fatEntry)
          (old ++ v.freeClusters) s ∧
        (v.firstCluster fd.fatEntry ≠ 0 → v'.firstCluster fd.fatEntry = v.firstCluster fd.fatEntry)) := by
  have hb : 0 < v.bytesPerCluster := Nat.lt_of_lt_of_le (by decide) h.formatted.bytesPerCluster
  have hmax := h.formatted.numFatEntries
  have hnotFree := h.not_free hfile.slot.1
  by_cases hfirst : v.firstCluster fd.fatEntry = 0
  · -- a file without clusters: the first `Write` makes its chain
    obtain rfl := hold.eq_nil hfirst
    have hstart : fd.wrCluster = 0 := hcursor.resolve_right List.not_mem_nil
    have hok := Stream.Ok.start v.bytesPerCluster (v.contentOf v.freeClusters) len
    refine ⟨{ Stream.start v.bytesPerCluster (v.contentOf v.freeClusters) len with
      offset := fd.wrClusterOff }, ⟨⟨hok.index_lt, hoff⟩, rfl, rfl, .inl ⟨hstart, rfl⟩⟩, fun n s hrun => ?_⟩
    obtain ⟨hfull, hroom⟩ := FileDescriptor.write_empty fd hb hmax hnotFree hfirst hstart hoff
      (contents_contentOf hb _) hrun
    rw [List.nil_append]
    refine ⟨hfull, fun hle => ?_⟩
    obtain ⟨x, fd', v', hwrite, hafter, rfl⟩ := hroom hle
    exact ⟨fd', v', hwrite, hafter, fun hne => absurd hfirst hne⟩
  · have hl := hold.clusterChain hfirst
    -- the cluster that the loop starts in
    obtain ⟨x, i, hstart, hi, hindex⟩ : ∃ x i, v.startWrite fd len = some (x, v) ∧ old[i]? = some x ∧
        (fd.wrCluster = 0 ∧ i = 0 ∨ old[i]? = some fd.wrCluster) := by
      unfold Volume.startWrite
      by_cases hzero : fd.wrCluster = 0
      · obtain ⟨t, rfl⟩ := hl.chain.exists_cons
        rw [if_pos hzero, if_pos hfirst]
        exact ⟨_, 0, rfl, rfl, .inl ⟨hzero, rfl⟩⟩
      · obtain ⟨i, hi⟩ := List.mem_iff_getElem?.mp (hcursor.resolve_left hzero)
        rw [if_neg hzero]
        exact ⟨_, i, rfl, hi, .inr hi⟩
    have hlt := (List.getElem?_eq_some_iff.mp hi).1
    have hst : v.Stores v.bytesPerCluster (v.firstCluster fd.fatEntry) (old ++ v.freeClusters)
        ⟨old.length, i, fd.wrClusterOff, v.contentOf (old ++ v.freeClusters)⟩ :=
      ⟨rfl, hb, hmax, by rw [List.take_left]; exact hl, by rw [List.drop_left],
        by rw [List.length_append]; exact Nat.le_add_right _ _, ⟨hlt, hoff⟩, contents_contentOf hb _⟩
    have hp := hfile.notMem_area h hold hfile.slot.1
    refine ⟨_, ⟨hst.ok, rfl, (if_neg hl.chain.ne_nil).symm, hindex⟩, fun n s hrun => ?_⟩
    obtain ⟨hfull, hroom⟩ := FileDescriptor.write_of_start hstart hst hp
      ((List.getElem?_append_left hlt).trans hi) rfl hrun
    refine ⟨hfull, fun hle => ?_⟩
    obtain ⟨fd', v', hwrite, hafter, hsame⟩ := hroom hle
    rw [← hsame] at hafter
    exact ⟨fd', v', hwrite, hafter, fun _ => hsame⟩

/-- What a `Write` that returned has done. -/
structure WriteRun (v : Volume) (fd : FileDescriptor) (old : List Nat) (buf : Nat → UInt8)
    (len n : Nat) (fd' : FileDescriptor) (v' : Volume) (s₀ s : Stream) : Prop where
  start : v.StartsAt fd old len s₀
  run : Stream.writeLoop v.bytesPerCluster buf len len 0 s₀ = (n, s)
  after : AfterWrite fd v n fd' v' v.bytesPerCluster (v'.firstCluster fd.fatEntry)
    (old ++ v.freeClusters) s
  first : v.firstCluster fd.fatEntry ≠ 0 → v'.firstCluster fd.fatEntry = v.firstCluster fd.fatEntry

theorem write_run (h : v.Layout dir) (hfile : v.IsFile dir fd.fatEntry)
    (hoff : fd.wrClusterOff ≤ v.bytesPerCluster) (hold : v.FileChain fd.fatEntry old)
    (hcursor : fd.wrCluster = 0 ∨ fd.wrCluster ∈ old) {buf : Nat → UInt8} {len n : Nat}
    {fd' : FileDescriptor} (hw : fd.write v buf len = some (n, fd', v')) :
    ∃ s₀ s, v.WriteRun fd old buf len n fd' v' s₀ s := by
  obtain ⟨s₀, hstart, hrun⟩ := write_from h hfile hoff hold hcursor buf len
  rcases hloop : Stream.writeLoop v.bytesPerCluster buf len len 0 s₀ with ⟨m, s⟩
  obtain ⟨hfull, hroom⟩ := hrun m s hloop
  by_cases hle : s.clusters ≤ (old ++ v.freeClusters).length
  · obtain ⟨fd₁, v₁, hwrite, hafter, hfirst⟩ := hroom hle
    cases hwrite.symm.trans hw
    exact ⟨s₀, s, hstart, hloop, hafter, hfirst⟩
  · rw [hfull (by omega)] at hw
    cases hw

variable {buf : Nat → UInt8} {len n : Nat} {fd' : FileDescriptor} {s₀ s : Stream}

/-- The clusters of the file after the `Write`. -/
theorem WriteRun.chain (hw : v.WriteRun fd old buf len n fd' v' s₀ s) :
    v'.ClusterChain (v'.firstCluster fd.fatEntry) ((old ++ v.freeClusters).take s.clusters) :=
  hw.after.follows.stores.chain

theorem WriteRun.length_le (hw : v.WriteRun fd old buf len n fd' v' s₀ s) : old.length ≤ s.clusters := by
  have hgrow := Stream.writeLoop_clusters (b := v.bytesPerCluster) buf len len 0 s₀
  rw [hw.run, hw.start.clusters] at hgrow
  split at hgrow
  · rename_i hnil
    rw [hnil]
    exact Nat.zero_le _
  · exact hgrow

/-- The chain of the file has grown at its end. -/
theorem WriteRun.old_prefix (hw : v.WriteRun fd old buf len n fd' v' s₀ s) :
    old <+: (old ++ v.freeClusters).take s.clusters := by
  rw [List.take_append, List.take_of_length_le hw.length_le]
  exact List.prefix_append _ _

theorem WriteRun.cursor (hw : v.WriteRun fd old buf len n fd' v' s₀ s) :
    ((old ++ v.freeClusters).take s.clusters)[s.index]? = some fd'.wrCluster :=
  (List.getElem?_take_of_lt hw.after.follows.stores.ok.index_lt).trans hw.after.follows.cluster

/-- The file of an open descriptor, and where its cursor is. -/
theorem OpenFile.fileChain (h : v.OpenFile dir fd) (hlayout : v.Layout dir) :
    ∃ l, v.FileChain fd.fatEntry l ∧ (fd.wrCluster = 0 ∨ fd.wrCluster ∈ l) := by
  rcases h.cursor with hstart | ⟨-, l, hl, hmem⟩
  · obtain ⟨l, hl⟩ := h.file.fileChain hlayout
    exact ⟨l, hl, .inl hstart.1⟩
  · exact ⟨l, .inr hl, .inr hmem⟩

/-- `Write` changes its file only. -/
theorem WriteRun.fileChange (hw : v.WriteRun fd old buf len n fd' v' s₀ s) (h : v.Layout dir)
    (hfile : v.IsFile dir fd.fatEntry) (hold : v.FileChain fd.fatEntry old) :
    FileChange v v' dir fd.fatEntry old ((old ++ v.freeClusters).take s.clusters) :=
  hw.after.written.fileChange h hfile hold hw.after.follows.stores rfl

theorem WriteRun.isFile (hw : v.WriteRun fd old buf len n fd' v' s₀ s)
    (hfile : v.IsFile dir fd.fatEntry) : v'.IsFile dir fd.fatEntry := by
  have hwritten := hw.after.written
  have hsame := hwritten.entries fd.fatEntry (by
    rw [← hw.after.fatEntry]
    exact hw.after.follows.entry)
  apply hfile.congr hsame (by omega) (by omega)
  exact (slot_congr hwritten.bytesPerCluster).mpr hfile.slot

/-- `Write` keeps the layout, and all descriptors of files stay descriptors of files. -/
theorem Layout.write (h : v.Layout dir) (hfd : v.OpenFile dir fd) {buf : Nat → UInt8} {len n : Nat}
    {fd' : FileDescriptor} (hw : fd.write v buf len = some (n, fd', v')) :
    v'.Layout dir ∧ v'.OpenFile dir fd' ∧ ∀ g, v.OpenFile dir g → v'.OpenFile dir g := by
  obtain ⟨old, hold, hcursor⟩ := hfd.fileChain h
  obtain ⟨s₀, s, hrun⟩ := write_run h hfd.file hfd.offset hold hcursor hw
  have hchange := hrun.fileChange h hfd.file hold
  have hfile := hrun.isFile hfd.file
  have hchain := hrun.chain
  have hafter := hrun.after
  have hfd' : v'.OpenFile dir fd' := by
    refine ⟨hafter.fatEntry.symm ▸ hfile, ?_, ?_⟩
    · rw [hafter.follows.offset, hafter.written.bytesPerCluster]
      exact hafter.follows.stores.ok.offset_le
    · rw [hafter.fatEntry]
      exact .inr ⟨hchain.ne_zero, _, hchain, List.mem_of_getElem? hrun.cursor⟩
  refine ⟨hchange.layout h, hfd', fun g hg => ?_⟩
  by_cases hgp : g.fatEntry = fd.fatEntry
  · -- another descriptor of the same file
    refine ⟨hgp ▸ hfile, hafter.written.bytesPerCluster ▸ hg.offset, ?_⟩
    rcases hg.cursor with hstart | ⟨-, l, hl, hmem⟩
    · exact .inl hstart
    · rw [hgp] at hl ⊢
      rw [FileChain.unique (.inr hl) hold] at hmem
      exact .inr ⟨hchain.ne_zero, _, hchain, hrun.old_prefix.subset hmem⟩
  · exact hchange.openFile h hg hgp

/-! ## `CreateFile` -/

theorem firstCluster_of_zero (h : ∀ k < kEntryBytes, v.entryByte p k = 0) :
    v.firstCluster p = 0 := by
  have hbyte : ∀ k < kEntryBytes, v.data p.cluster (p.offset + k) = 0 := h
  simp only [firstCluster, readLE, Nat.add_assoc, hbyte 26 (by decide), hbyte 27 (by decide),
    hbyte 20 (by decide), hbyte 21 (by decide)]
  rfl

/-- `AllocateEntry` returns an unused slot without a chain, unless the slot kept an old one. -/
theorem Layout.allocateEntry (h : v.Layout dir) {fuel cluster : Nat} (hc : dir cluster)
    (hslot : ∀ p, v.freeSlot fuel cluster = some p → v.firstCluster p = 0)
    (heq : v.allocateEntry fuel cluster = some (p, v')) :
    ∃ dir', v'.Layout dir' ∧ v'.Slot dir' p ∧ v'.firstCluster p = 0 ∧
      (v'.entryByte p 0 = 0 ∨ v'.entryByte p 0 = kDeleted) ∧
      ∀ fd, v.OpenFile dir fd → v'.OpenFile dir' fd := by
  rcases allocateEntry_cases h hc heq with
    ⟨rfl, hfree, hp, hname⟩ | ⟨o, c, l, e, x, howns, hdir, hl, he, hx, rfl, rfl⟩
  · exact ⟨dir, h, hp, hslot p hfree, hname, fun _ hfd => hfd⟩
  · have happ := hl.appended h.formatted.numFatEntries he (List.nodup_singleton x)
      (List.cons_subset.mpr ⟨hx, List.nil_subset _⟩)
    have hsame := happ.sameData
    have hper : 0 < v.entriesPerCluster :=
      Nat.div_pos h.formatted.bytesPerCluster (by decide)
    have hbyte : ∀ k < kEntryBytes,
        ((v.relink e [x]).clearCluster x).entryByte ⟨x, 0⟩ k = 0 := by
      intro k hk
      apply entryByte_clearCluster _ _ hk
      unfold entriesPerCluster
      rw [hsame.bytesPerCluster]
      exact hper
    refine ⟨_, h.extendDirectory howns hdir hl he hx, ⟨.inr rfl, ?_⟩, firstCluster_of_zero hbyte,
      .inl (hbyte 0 (by decide)), ?_⟩
    · show 0 < ((v.relink e [x]).bytesPerCluster) / kEntryBytes
      rw [hsame.bytesPerCluster]
      exact hper
    · intro fd hfd
      -- neither the new cluster nor the end of the directory belongs to the file
      have hne : fd.fatEntry.cluster ≠ x := fun hx' =>
        h.not_free hfd.file.slot.1 (hx' ▸ hx)
      apply hfd.congr (SameEntry.of_data ((setCluster_of_ne _ _ hne).trans
        (congrFun hsame.data _)) _) hsame.bytesPerCluster Or.inl
      intro m hlive hm
      refine hm.congr ?_ fun y hy => ?_
      · exact hsame.numFatEntries
      show (v.relink e [x]).fat y = v.fat y
      apply happ.fat y
      · intro hlast
        have hown : v.Owns dir (some fd.fatEntry) _ := ⟨hfd.file.slot, hlive, rfl⟩
        have hneo : some fd.fatEntry ≠ o := by
          rintro rfl
          exact hfd.file.not_directory hdir
        exact h.family.disjoint _ _ _ _ _ _ hown howns hneo hm.chain hl.chain hy
          (List.mem_of_getLast? hlast)
      · exact fun hin => hm.not_free hy (happ.free hin)

/-- Naming an unused slot without a chain. -/
theorem fileChange_setFileName (h : v.Layout dir) (filename : List UInt8)
    (hfirst : v.firstCluster p = 0) :
    FileChange v ((v.setFileName p filename).setFileSize p 0) dir p [] [] := by
  have hsame : ∀ q, SameEntry v ((v.setFileName p filename).setFileSize p 0) q
      fun k => q = p ∧ k < 11 ∨ q = p ∧ 28 ≤ k := fun q =>
    (sameEntry_copyIn v p (by decide) (fileName83 filename) q).trans
      (sameEntry_setFileSize _ p 0 q)
  have hfirst' : ((v.setFileName p filename).setFileSize p 0).firstCluster p = 0 := by
    rw [firstCluster_congr (hsame p) fun k _ _ hk => by omega]
    exact hfirst
  exact ⟨⟨h.formatted.1, h.formatted.2, h.formatted.3⟩, rfl, rfl, rfl,
    fun q hq _ => (hsame q).mono fun _ hk => hk.elim (fun hk => hq hk.1) fun hk => hq hk.1,
    fun _ _ _ _ => rfl, fun _ hx => absurd hx List.not_mem_nil,
    fun hlive => absurd hfirst hlive.firstCluster_ne_zero,
    fun hlive => absurd hfirst' hlive.firstCluster_ne_zero, .inl rfl,
    fun hlive => absurd hfirst hlive.firstCluster_ne_zero,
    fun hlive => absurd hfirst' hlive.firstCluster_ne_zero⟩

/-- The parent directory of a new file is a directory of the volume, or has no cluster. -/
theorem parentDirectory_dir (h : v.Layout dir) {path filename : List UInt8} {cluster : Nat}
    (hpath : ∀ parentDirName filename, splitLast kSlash path = some (parentDirName, filename) →
      ¬ NamesDeleted parentDirName)
    (heq : v.parentDirectory path = some (.ok (cluster, filename))) :
    cluster = 0 ∨ dir cluster := by
  unfold parentDirectory at heq
  split at heq
  · cases heq
    exact .inr h.root_dir
  · rename_i parentDirName filename' hsplit
    split at heq
    · cases heq
    · split at heq
      · cases heq
        exact .inr h.root_dir
      · obtain ⟨⟨r, postSlash⟩, hfind, heq⟩ := Option.map_eq_some_iff.mp heq
        cases r with
        | none => cases heq
        | some parentDir =>
          dsimp only at heq
          split at heq
          · cases heq
          · rename_i hattr
            cases heq
            have hnamed := findFile_named h (hpath _ _ hsplit) hfind
            exact hnamed.firstCluster_dir h (not_not.mp hattr)

theorem Layout.createFile (h : v.Layout dir) {path : List UInt8}
    {r : WithError (Option EntryPtr)}
    (hpath : ∀ parentDirName filename, splitLast kSlash path = some (parentDirName, filename) →
      ¬ NamesDeleted parentDirName)
    (hslot : ∀ cluster filename, v.parentDirectory path = some (.ok (cluster, filename)) →
      ∀ p, v.freeSlot (v.numFatEntries + 1) cluster = some p → v.firstCluster p = 0)
    (heq : v.createFile path = some (r, v')) :
    ∃ dir', v'.Layout dir' ∧ ∀ fd, v.OpenFile dir fd → v'.OpenFile dir' fd := by
  unfold Volume.createFile at heq
  obtain ⟨parent, hparent, heq⟩ := Option.bind_eq_some_iff.mp heq
  cases parent with
  | error err =>
    cases heq
    exact ⟨dir, h, fun _ hfd => hfd⟩
  | ok parent =>
    obtain ⟨⟨p, v₁⟩, hentry, heq⟩ := Option.map_eq_some_iff.mp heq
    cases heq
    have hdir : dir parent.1 := by
      apply (parentDirectory_dir h hpath hparent).resolve_left
      -- cluster 0 is no cluster to search for a slot
      intro hzero
      rw [hzero, Volume.allocateEntry, if_neg (by unfold IsCluster; omega)] at hentry
      cases hentry
    obtain ⟨dir', h₁, hp, hfirst, hname, hopen⟩ :=
      h.allocateEntry hdir (hslot parent.1 parent.2 hparent) hentry
    have hchange := fileChange_setFileName h₁ parent.2 hfirst
    refine ⟨dir', hchange.layout h₁, fun fd hfd => ?_⟩
    have hfd₁ := hopen fd hfd
    apply hchange.openFile h₁ hfd₁
    rintro rfl
    exact hname.elim hfd₁.file.name_ne_zero hfd₁.file.name_ne_deleted

/-! ## `DeleteFile` -/

/-- `FreeCluster(0)`: cell 0 is no link, so that it is cleared, or read as the number of a cluster behind
the FAT. -/
theorem freeCluster_zero (hf : v.Formatted) (hpos : 0 < v.numFatEntries) :
    freeCluster (v.numFatEntries + 1) v 0 =
      if isEndOfClusterchain (v.fat 0) ∨ v.fat 0 = 0 then some (v.setFAT 0 0) else none := by
  obtain ⟨n, hn⟩ : ∃ n, v.numFatEntries = n + 1 := ⟨v.numFatEntries - 1, by omega⟩
  rw [freeCluster, getFAT, if_pos hpos, Option.bind_some]
  split
  · rfl
  · rename_i hstop
    have hout := hf.reserved.resolve_left fun hzero => hstop (.inr hzero)
    rw [hn, freeCluster, getFAT, if_neg (by omega)]
    rfl

/-- Freeing the chain of a file and marking its slot; an empty file has no chain, and cell 0 of the FAT
is then all that may be cleared. -/
theorem fileChange_freeCluster (h : v.Layout dir) (hfile : v.IsFile dir p) {v₁ : Volume}
    (hfree : freeCluster (v.numFatEntries + 1) v (v.firstCluster p) = some v₁) :
    ∃ old, FileChange v (v₁.copyIn p.cluster p.offset (fun _ => kDeleted) 1) dir p old [] := by
  have hsame : ∀ q, SameEntry v₁ (v₁.copyIn p.cluster p.offset (fun _ => kDeleted) 1) q
      fun k => q = p ∧ k < 1 := sameEntry_copyIn v₁ p (by decide) _
  have hdead : ¬ (v₁.copyIn p.cluster p.offset (fun _ => kDeleted) 1).IsLive p := by
    intro hlive
    apply hlive.name_ne_deleted
    unfold copyIn entryByte
    rw [setCluster_self]
    apply (if_pos ⟨Nat.le_refl _, Nat.lt_succ_self _⟩).trans
    rfl
  by_cases hfirst : v.firstCluster p = 0
  · -- cell 0 is an end mark or free, so that `FreeCluster` clears it and stops
    have hpos := (h.inUse hfile.slot.1).1.2
    rw [hfirst, freeCluster_zero h.formatted (by omega)] at hfree
    obtain ⟨-, hv₁⟩ := Option.ite_none_right_eq_some.mp hfree
    have hnotLive : ¬ v.IsLive p := fun hlive => hlive.firstCluster_ne_zero hfirst
    rw [← Option.some.inj hv₁] at hsame hdead ⊢
    refine ⟨[], ⟨h.formatted.1, h.formatted.2, .inl (setFAT_self v 0 0)⟩, rfl, rfl, rfl,
      fun q hq _ => (hsame q).mono fun _ hk => hq hk.1, fun x hx _ _ => setFAT_of_ne v 0 ?_,
      fun _ hx => absurd hx List.not_mem_nil, fun hl => absurd hl hnotLive,
      fun hl => absurd hl hdead, .inl rfl, fun hl => absurd hl hnotLive,
      fun hl => absurd hl hdead⟩
    have := hx.1.1
    omega
  · have hlive := hfile.isLive hfirst
    obtain ⟨l, hchain⟩ := hfile.fileChain h
    have hl := hchain.clusterChain hfirst
    rw [freeCluster_eq hl (Nat.le_succ_of_le hl.length_le)] at hfree
    cases hfree
    have hzero : 0 ∉ l := by
      intro hmem
      have := (hl.valid 0 hmem).1.1
      omega
    refine ⟨l, ⟨h.formatted.1, h.formatted.2, ?_⟩, rfl, rfl, rfl,
      fun q hq _ => (hsame q).mono fun _ hk => hq hk.1, fun x _ hx _ => if_neg hx,
      fun _ hx => absurd hx List.not_mem_nil, fun _ => hfile.not_directory,
      fun hl => absurd hl hdead, .inr ⟨hfile.slot, hlive⟩, fun _ => hl, fun hl => absurd hl hdead⟩
    show (if 0 ∈ l then 0 else v.fat 0) = 0 ∨
      v.numFatEntries ≤ if 0 ∈ l then 0 else v.fat 0
    rw [if_neg hzero]
    exact h.formatted.3

theorem Layout.deleteFile (h : v.Layout dir) {path : List UInt8} {r : Error × List UInt8}
    (hpath : ¬ NamesDeleted path)
    (hentry : ∀ p postSlash, v.findFile path 0 = some (some p, postSlash) →
      v.attr p ≠ Attribute.kLongName.code)
    (heq : v.deleteFile path = some (r, v')) :
    v'.Layout dir ∧ ∀ fd, v.OpenFile dir fd → v'.entryByte fd.fatEntry 0 ≠ kDeleted →
      v'.OpenFile dir fd := by
  have hrefused : v' = v → v'.Layout dir ∧ ∀ fd, v.OpenFile dir fd →
      v'.entryByte fd.fatEntry 0 ≠ kDeleted → v'.OpenFile dir fd := by
    rintro rfl
    exact ⟨h, fun _ hfd _ => hfd⟩
  unfold Volume.deleteFile at heq
  obtain ⟨⟨found, postSlash⟩, hfind, heq⟩ := Option.bind_eq_some_iff.mp heq
  cases found with
  | none => exact hrefused (congrArg Prod.snd (Option.some.inj heq)).symm
  | some p =>
    dsimp only at heq
    split at heq
    · exact hrefused (congrArg Prod.snd (Option.some.inj heq)).symm
    split at heq
    · exact hrefused (congrArg Prod.snd (Option.some.inj heq)).symm
    rename_i hattr
    split at heq
    · exact hrefused (congrArg Prod.snd (Option.some.inj heq)).symm
    split at heq
    · exact hrefused (congrArg Prod.snd (Option.some.inj heq)).symm
    -- the file is deleted
    have hnamed := findFile_named h hpath hfind
    have hfile : v.IsFile dir p :=
      ⟨hnamed.1, hnamed.2, hnamed.3, hattr, hentry p postSlash hfind⟩
    obtain ⟨v₁, hfree, heq⟩ := Option.map_eq_some_iff.mp heq
    cases heq
    obtain ⟨old, hchange⟩ := fileChange_freeCluster h hfile hfree
    refine ⟨hchange.layout h, fun fd hfd hname => hchange.openFile h hfd ?_⟩
    rintro rfl
    apply hname
    unfold copyIn entryByte
    rw [setCluster_self]
    apply (if_pos ⟨Nat.le_refl _, Nat.lt_succ_self _⟩).trans
    rfl

end Volume

/-! ## Runs -/

open Volume

/-- A volume and the descriptors of its files. -/
structure Files where
  volume : Volume
  fds : List FileDescriptor

inductive FileEvent where
  | createFile (path : List UInt8)
  | openFile (p : EntryPtr)
  | write (i : Nat) (buf : Nat → UInt8) (len : Nat)
  | deleteFile (path : List UInt8)

/-- One operation.  A descriptor can be made for any file; the descriptors of a file are given up when it
is deleted. -/
inductive FileStep : Files → FileEvent → Files → Prop
  | createFile {s : Files} {path : List UInt8} {r : WithError (Option EntryPtr)} {v' : Volume}
      (h : s.volume.createFile path = some (r, v')) :
      FileStep s (.createFile path) { s with volume := v' }
  | openFile {s : Files} {p : EntryPtr} (h : s.volume.IsFile s.volume.DirCluster p) :
      FileStep s (.openFile p) { s with fds := FileDescriptor.new p :: s.fds }
  | write {s : Files} {i : Nat} {buf : Nat → UInt8} {len n : Nat} {fd fd' : FileDescriptor}
      {v' : Volume} (hfd : s.fds[i]? = some fd) (h : fd.write s.volume buf len = some (n, fd', v')) :
      FileStep s (.write i buf len) ⟨v', s.fds.set i fd'⟩
  | deleteFile {s : Files} {path : List UInt8} {r : Error × List UInt8} {v' : Volume}
      (h : s.volume.deleteFile path = some (r, v')) :
      FileStep s (.deleteFile path)
        ⟨v', s.fds.filter fun fd => v'.entryByte fd.fatEntry 0 ≠ kDeleted⟩

/-- The slot that a new file takes has no first cluster left from a deleted file, and the path to it or to
the file to delete leads through no deleted slot and to no part of a long name. -/
def FileEvent.LeavesNothing (v : Volume) : FileEvent → Prop
  | .createFile path =>
    (∀ parentDirName filename, splitLast kSlash path = some (parentDirName, filename) →
      ¬ NamesDeleted parentDirName) ∧
    ∀ cluster filename, v.parentDirectory path = some (.ok (cluster, filename)) →
      ∀ p, v.freeSlot (v.numFatEntries + 1) cluster = some p → v.firstCluster p = 0
  | .openFile _ | .write _ _ _ => True
  | .deleteFile path => ¬ NamesDeleted path ∧
    ∀ p postSlash, v.findFile path 0 = some (some p, postSlash) →
      v.attr p ≠ Attribute.kLongName.code

structure Files.Inv (s : Files) (dir : Nat → Prop) : Prop where
  layout : s.volume.Layout dir
  openFile : ∀ fd ∈ s.fds, s.volume.OpenFile dir fd

def Files.LaidOut (s : Files) : Prop := ∃ dir, s.Inv dir

theorem Files.Inv.step {s s' : Files} {e : FileEvent} {dir : Nat → Prop} (h : s.Inv dir)
    (he : e.LeavesNothing s.volume) (hs : FileStep s e s') : s'.LaidOut := by
  cases hs with
  | createFile hcreate =>
    obtain ⟨dir', hlayout, hopen⟩ := h.layout.createFile he.1 he.2 hcreate
    exact ⟨dir', hlayout, fun fd hfd => hopen fd (h.openFile fd hfd)⟩
  | @openFile p hfile =>
    refine ⟨dir, h.layout, fun fd hfd => ?_⟩
    rcases List.mem_cons.mp hfd with rfl | hfd
    · exact ⟨⟨⟨h.layout.dir_of_dirCluster hfile.1.1, hfile.1.2⟩, hfile.2, hfile.3, hfile.4, hfile.5⟩,
        Nat.zero_le _, .inl ⟨rfl, rfl⟩⟩
    · exact h.openFile fd hfd
  | write hfd hwrite =>
    obtain ⟨hlayout, hself, hothers⟩ :=
      h.layout.write (h.openFile _ (List.mem_of_getElem? hfd)) hwrite
    refine ⟨dir, hlayout, fun g hg => ?_⟩
    rcases List.mem_or_eq_of_mem_set hg with hg | rfl
    · exact hothers g (h.openFile g hg)
    · exact hself
  | deleteFile hdelete =>
    obtain ⟨hlayout, hopen⟩ := h.layout.deleteFile he.1 he.2 hdelete
    refine ⟨dir, hlayout, fun fd hfd => ?_⟩
    obtain ⟨hmem, hname⟩ := List.mem_filter.mp hfd
    exact hopen fd (h.openFile fd hmem) (of_decide_eq_true hname)

/-- A volume with one file "A" in the root directory, of one cluster. -/
def oneFileVolume : Volume where
  bytesPerCluster := 32
  numFatEntries := 6
  rootCluster := 2
  fat := fun c => if c < 4 then kEndOfClusterchain else 0
  data := fun c k =>
    if c = 2 then
      (bytesOf "A          " ++ Attribute.kArchive.code :: List.replicate 14 0 ++ [3, 0, 1]).getD k 0
    else 0

theorem oneFileVolume_wellFormed : oneFileVolume.WellFormed := by
  have hroot : oneFileVolume.ClusterChain 2 [2] := ⟨.last (by decide), by decide⟩
  have hfile : oneFileVolume.ClusterChain 3 [3] := ⟨.last (by decide), by decide⟩
  have hslot : ∀ p, oneFileVolume.Slot (· ∈ [2]) p → p = ⟨2, 0⟩ := by
    rintro ⟨c, i⟩ ⟨hc, hi⟩
    obtain rfl : c = 2 := List.mem_singleton.mp hc
    obtain rfl : i = 0 := Nat.lt_one_iff.mp hi
    rfl
  apply wellFormed_of_files ⟨by decide, by decide, .inr (by decide)⟩ hroot
  · intro p hp _
    obtain rfl := hslot p hp
    exact ⟨by decide, [3], hfile, List.singleton_disjoint.mpr (by decide)⟩
  · intro p q hp hq hne
    exact absurd ((hslot p hp).trans (hslot q hq).symm) hne

/-- No two live entries share a cluster, and no chain has a free cluster in it, as long as no new file
takes the slot of a deleted file that had a chain. -/
theorem wellFormed_of_run {s : Files}
    (h : Reachable (fun s : Files => s.volume.WellFormed ∧ s.fds = [])
      (fun s s' => ∃ e, e.LeavesNothing s.volume ∧ FileStep s e s') s) : s.volume.WellFormed := by
  have hinv : s.LaidOut := by
    apply h.invariant
    · rintro s ⟨hwell, hnone⟩
      refine ⟨_, hwell.layout, fun fd hfd => ?_⟩
      rw [hnone] at hfd
      cases hfd
    · rintro s s' ⟨dir, hs⟩ ⟨e, he, hstep⟩
      exact hs.step he hstep
  obtain ⟨dir, hs⟩ := hinv
  exact hs.layout.wellFormed

/-- A second file is created in a new cluster of the root directory, opened and written to. -/
theorem wellFormed_of_run_second_file :
    ∃ r n v₁ fd v₂, oneFileVolume.createFile (bytesOf "B") = some (r, v₁) ∧
      (FileDescriptor.new ⟨4, 0⟩).write v₁ (fun _ => 0x2a) 1 = some (n, fd, v₂) ∧
      v₂.WellFormed := by
  obtain ⟨r, v₁, hcreate⟩ : ∃ r v', oneFileVolume.createFile (bytesOf "B") = some (r, v') :=
    ⟨_, _, rfl⟩
  obtain ⟨n, fd, v₂, hwrite⟩ : ∃ n fd v',
      (FileDescriptor.new ⟨4, 0⟩).write v₁ (fun _ => 0x2a) 1 = some (n, fd, v') := by
    cases hcreate
    exact ⟨_, _, _, rfl⟩
  have hroot : v₁.ClusterChain v₁.rootCluster [2, 4] := by
    cases hcreate
    exact ⟨.link (by decide) (.last (by decide)), by decide⟩
  have hfile : v₁.IsFile v₁.DirCluster ⟨4, 0⟩ := by
    refine ⟨⟨.root hroot (by decide), ?_⟩, ?_, ?_, ?_, ?_⟩ <;> cases hcreate <;> decide
  refine ⟨r, n, v₁, fd, v₂, hcreate, hwrite, ?_⟩
  apply wellFormed_of_run (s := ⟨v₂, [fd]⟩)
  apply Reachable.next (s := ⟨v₁, [FileDescriptor.new ⟨4, 0⟩]⟩)
  · apply Reachable.next (s := ⟨v₁, []⟩)
    · apply Reachable.next (s := ⟨oneFileVolume, []⟩)
      · exact .start ⟨oneFileVolume_wellFormed, rfl⟩
      · refine ⟨.createFile (bytesOf "B"), ⟨fun _ _ hsplit => ?_, fun _ _ hparent p hslot => ?_⟩,
          .createFile hcreate⟩
        · cases hsplit
        · cases hparent
          cases hslot
    · exact ⟨.openFile ⟨4, 0⟩, trivial, .openFile hfile⟩
  · exact ⟨.write 0 (fun _ => 0x2a) 1, trivial, .write rfl hwrite⟩

/-- Deleting "A" and creating "B": the new file takes the slot, and with it the freed chain. -/
theorem createFile_keeps_chain :
    ∃ s : Files, Reachable (fun s : Files => s.volume.WellFormed ∧ s.fds = [])
        (fun s s' => ∃ e, FileStep s e s') s ∧
      s.volume.IsFile s.volume.DirCluster ⟨2, 0⟩ ∧ s.volume.IsLive ⟨2, 0⟩ ∧
      s.volume.fat (s.volume.firstCluster ⟨2, 0⟩) = 0 ∧ ¬ s.volume.WellFormed := by
  obtain ⟨r₁, v₁, hdelete⟩ : ∃ r v', oneFileVolume.deleteFile (bytesOf "A") = some (r, v') :=
    ⟨_, _, rfl⟩
  obtain ⟨r₂, v₂, hcreate⟩ : ∃ r v', v₁.createFile (bytesOf "B") = some (r, v') := by
    cases hdelete
    exact ⟨_, _, rfl⟩
  have hroot : v₂.ClusterChain v₂.rootCluster [2] := by
    cases hdelete
    cases hcreate
    exact ⟨.last (by decide), by decide⟩
  have hfile : v₂.IsFile v₂.DirCluster ⟨2, 0⟩ := by
    refine ⟨⟨.root hroot (List.mem_singleton_self 2), ?_⟩, ?_, ?_, ?_, ?_⟩ <;> cases hdelete <;>
      cases hcreate <;> decide
  have hfirst : v₂.firstCluster ⟨2, 0⟩ = 3 := by
    cases hdelete
    cases hcreate
    decide
  have hfree : v₂.fat 3 = 0 := by
    cases hdelete
    cases hcreate
    decide
  have hlive : v₂.IsLive ⟨2, 0⟩ := hfile.isLive (by rw [hfirst]; decide)
  refine ⟨⟨v₂, []⟩, ?_, hfile, hlive, hfirst ▸ hfree, fun hwell => ?_⟩
  · apply Reachable.next (s := ⟨v₁, []⟩)
    · apply Reachable.next (s := ⟨oneFileVolume, []⟩)
      · exact .start ⟨oneFileVolume_wellFormed, rfl⟩
      · exact ⟨.deleteFile (bytesOf "A"), .deleteFile hdelete⟩
    · exact ⟨.createFile (bytesOf "B"), .createFile hcreate⟩
  · obtain ⟨l, hl⟩ := hwell.chain (some ⟨2, 0⟩) _ ⟨hfile.slot, hlive, rfl⟩
    rw [hfirst] at hl
    exact hl.head_valid.2 hfree

end MikanSaos
