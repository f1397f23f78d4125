import MikanSaos.FileSystem.FileRuns
import MikanSaos.FileSystem.ReadRun
import MikanSaos.FileSystem.StreamRun

/-!
# SharedFile — one descriptor reads what other descriptors write

`Write` sets the size of the file to what its own descriptor has written, which may be less than another
descriptor has read.  The chain of the file only grows, so that every descriptor keeps its place in it; but
the number of bytes left to read is a difference of unsigned numbers, and a reader that has come to the end
mark is not told of new clusters.
-/

open Reasoning

namespace MikanSaos

open Volume

namespace FileDescriptor

/-- `Read` returns no more bytes than are left, and copies from clusters of the file only. -/
def InBounds (fd : FileDescriptor) (v : Volume) (len : Nat) : Prop :=
  ∃ bytes fd' l, fd.read v len = some (bytes, fd') ∧
    bytes.length ≤ v.fileSize fd.fatEntry - fd.rdOff ∧ v.FileChain fd.fatEntry l ∧
    ∀ x ∈ fd.readClusters v len, x ∈ l

/-- The same for the `Read` that `Load` calls at the end, if its walk along the chain gets there. -/
def LoadInBounds (fd : FileDescriptor) (v : Volume) (len offset : Nat) : Prop :=
  ∃ g, fd.loadDescriptor v offset = some g ∧ g.InBounds v len

end FileDescriptor

namespace Volume

variable {v v' : Volume} {p : EntryPtr} {l l' : List Nat} {fd fd' : FileDescriptor}

/-! ## The reader -/

/-- The place of a reader in a file that others write to: it has read nothing yet, it is in the cluster of
its position, or it has come to the end mark, where the file may have ended earlier. -/
structure ReadCursor (v : Volume) (p : EntryPtr) (l : List Nat) (fd : FileDescriptor) : Prop where
  entry : fd.fatEntry = p
  offset : fd.rdClusterOff = fd.rdOff % v.bytesPerCluster
  room : fd.rdOff ≤ l.length * v.bytesPerCluster
  cluster : fd.rdCluster = 0 ∧ fd.rdOff = 0 ∨ l[fd.rdOff / v.bytesPerCluster]? = some fd.rdCluster ∨
    fd.rdCluster = kEndOfClusterchain

theorem ReadCursor.new (v : Volume) (p : EntryPtr) (l : List Nat) : v.ReadCursor p l (.new p) :=
  ⟨rfl, (Nat.zero_mod _).symm, Nat.zero_le _, .inl ⟨rfl, rfl⟩⟩

/-- A reader keeps its place when the chain grows. -/
theorem ReadCursor.mono (h : v.ReadCursor p l fd) (hbytes : v'.bytesPerCluster = v.bytesPerCluster)
    (hl : l <+: l') : v'.ReadCursor p l' fd := by
  obtain ⟨t, rfl⟩ := hl
  refine ⟨h.entry, hbytes ▸ h.offset, ?_, ?_⟩
  · have hroom := h.room
    rw [hbytes, List.length_append, Nat.add_mul]
    omega
  · rw [hbytes]
    refine h.cluster.imp id fun hc => hc.imp (fun hget => ?_) id
    rw [List.getElem?_append_left (List.getElem?_eq_some_iff.mp hget).1]
    exact hget

theorem ReadCursor.position (h : v.ReadCursor p l fd) (hend : fd.rdCluster ≠ kEndOfClusterchain) :
    v.ReadPosition p l fd :=
  ⟨h.entry, h.offset, h.cluster.imp id fun hc => .inl (hc.resolve_right hend)⟩

theorem ReadPosition.cursor (h : v.ReadPosition p l fd)
    (hroom : fd.rdOff ≤ l.length * v.bytesPerCluster) : v.ReadCursor p l fd :=
  ⟨h.entry, h.offset, hroom, h.cluster.imp id fun hc => hc.imp id And.left⟩

theorem readLoop_length {fuel remaining cluster offset : Nat} {r : List UInt8 × Nat × Nat}
    (h : v.readLoop fuel remaining cluster offset = some r) : r.1.length = remaining := by
  induction fuel generalizing remaining cluster offset r with
  | zero =>
    cases remaining with
    | zero => exact Option.some.inj h ▸ rfl
    | succ remaining => cases h
  | succ fuel ih =>
    cases remaining with
    | zero => exact Option.some.inj h ▸ rfl
    | succ remaining =>
      rw [readLoop] at h
      split at h
      · dsimp only at h
        obtain ⟨next, -, h⟩ := Option.bind_eq_some_iff.mp h
        obtain ⟨r', hrest, rfl⟩ := Option.map_eq_some_iff.mp h
        rw [List.length_append, List.length_map, List.length_range, ih hrest]
        omega
      · cases h

/-- What `Read` returns, in a file of any size. -/
theorem read_length {len : Nat} {bytes : List UInt8} (h : fd.read v len = some (bytes, fd')) :
    bytes.length = min len (sub64 (v.fileSize fd.fatEntry) fd.rdOff) := by
  obtain ⟨r, hloop, heq⟩ := Option.map_eq_some_iff.mp h
  obtain ⟨hbytes, -⟩ := Prod.mk.inj heq
  rw [← hbytes]
  exact readLoop_length hloop

theorem ReadCursor.read_end (h : v.ReadCursor p l fd) (hmax : v.numFatEntries ≤ kMaxFatEntries)
    (hend : fd.rdCluster = kEndOfClusterchain) {len : Nat}
    (hpos : 0 < min len (sub64 (v.fileSize p) fd.rdOff)) : fd.read v len = none := by
  unfold FileDescriptor.read
  dsimp only
  rw [hend, if_neg (by decide), h.entry, readLoop_end hmax _ _ hpos, Option.map_none]

theorem ReadPosition.read_past (h : v.ReadPosition p l fd) (hmax : v.numFatEntries ≤ kMaxFatEntries)
    (hb : 0 < v.bytesPerCluster) (hl : v.FileChain p l) {len n : Nat}
    (hn : min len (sub64 (v.fileSize p) fd.rdOff) = n) (hpos : 0 < n)
    (hpast : l.length * v.bytesPerCluster < fd.rdOff + n) : fd.read v len = none := by
  unfold FileDescriptor.read
  dsimp only
  rw [h.entry, hn]
  rcases hl with ⟨hzero, rfl⟩ | hchain
  · -- there is no cluster to read from
    have hx : (if fd.rdCluster = 0 then v.firstCluster p else fd.rdCluster) = 0 ∨
        (if fd.rdCluster = 0 then v.firstCluster p else fd.rdCluster) = kEndOfClusterchain := by
      rcases h.cluster with ⟨hc, -⟩ | hget | ⟨hc, -⟩
      · rw [if_pos hc]
        exact .inl hzero
      · cases hget
      · rw [hc]
        exact .inr rfl
    obtain ⟨n, rfl⟩ : ∃ m, n = m + 1 := ⟨n - 1, by omega⟩
    rcases hx with hx | hx
    · rw [hx, readLoop, if_neg fun hc => absurd hc.1 (by decide), Option.map_none]
    · rw [hx, readLoop_end hmax _ _ hpos, Option.map_none]
  · have hstart := h.start hchain
    rw [h.entry] at hstart
    rw [h.offset, readLoop_past hmax hb hchain n n _ _ hpast hpos hstart, Option.map_none]

/-- A `Read` that returns has stayed in the chain, whatever the size of the file is. -/
theorem ReadCursor.read (h : v.ReadCursor p l fd) (hmax : v.numFatEntries ≤ kMaxFatEntries)
    (hb : 0 < v.bytesPerCluster) (hl : v.FileChain p l) {len : Nat} {bytes : List UInt8}
    (hread : fd.read v len = some (bytes, fd')) : v.ReadCursor p l fd' := by
  generalize hn : min len (sub64 (v.fileSize p) fd.rdOff) = n
  -- a `Read` of some bytes from the end mark, or of more than the clusters hold, does not return
  by_cases hend : fd.rdCluster = kEndOfClusterchain
  · by_cases hzero : n = 0
    · -- nothing is read, and nothing changes
      unfold FileDescriptor.read at hread
      dsimp only at hread
      rw [h.entry, hn, hzero, hend, if_neg (by decide), readLoop] at hread
      cases hread
      exact ⟨rfl, h.offset, h.room, .inr (.inr rfl)⟩
    · rw [h.read_end hmax hend (by omega)] at hread
      cases hread
  · have hpos := h.position hend
    by_cases hroom : fd.rdOff + n ≤ l.length * v.bytesPerCluster
    · obtain ⟨g, hg, hgpos, hgoff, -⟩ := hpos.read_count hmax hb hl hn hroom
      cases hread.symm.trans hg
      exact hgpos.cursor (hgoff ▸ hroom)
    · have hroom' := h.room
      rw [hpos.read_past hmax hb hl hn (by omega) (by omega)] at hread
      cases hread

/-- When a `Read` stays in bounds. -/
theorem ReadCursor.inBounds_iff (h : v.ReadCursor p l fd) (hmax : v.numFatEntries ≤ kMaxFatEntries)
    (hb : 0 < v.bytesPerCluster) (hl : v.FileChain p l)
    (hcover : v.fileSize p ≤ l.length * v.bytesPerCluster) (hsmall : fd.rdOff < 2 ^ 64) (len : Nat) :
    fd.InBounds v len ↔ len = 0 ∨ fd.rdOff = v.fileSize p ∨
      fd.rdOff < v.fileSize p ∧ fd.rdCluster ≠ kEndOfClusterchain := by
  have hlt := v.fileSize_lt p
  constructor
  · rintro ⟨bytes, fd', m, hread, hlen, -, -⟩
    rw [read_length hread, h.entry] at hlen
    rcases Nat.lt_trichotomy fd.rdOff (v.fileSize p) with hlow | heq | hhigh
    · by_cases hzero : len = 0
      · exact .inl hzero
      · refine .inr (.inr ⟨hlow, fun hend => ?_⟩)
        rw [h.read_end hmax hend (by rw [sub64_of_le (by omega) (by omega)]; omega)] at hread
        cases hread
    · exact .inr (.inl heq)
    · -- the difference wraps round
      unfold sub64 at hlen
      exact .inl (by omega)
  · intro hcases
    -- a `Read` of no bytes returns in every state
    by_cases hnone : min len (sub64 (v.fileSize p) fd.rdOff) = 0
    · have hread : fd.read v len = some ([], { fd with
          rdCluster := if fd.rdCluster = 0 then v.firstCluster p else fd.rdCluster }) := by
        unfold FileDescriptor.read
        dsimp only
        rw [h.entry, hnone, readLoop]
        rfl
      have hclusters : fd.readClusters v len = [] := by
        unfold FileDescriptor.readClusters
        dsimp only
        rw [h.entry, hnone, readLoopClusters]
      refine ⟨[], _, l, hread, Nat.zero_le _, h.entry.symm ▸ hl, fun x hx => ?_⟩
      rw [hclusters] at hx
      cases hx
    · rcases hcases with rfl | heq | ⟨hlow, hend⟩
      · exact absurd (Nat.zero_min _) hnone
      · rw [heq, sub64_of_le (Nat.le_refl _) (by omega), Nat.sub_self] at hnone
        exact absurd (Nat.min_zero _) hnone
      · obtain ⟨fd', hread, -, -, hin⟩ := (h.position hend).read hmax hb hl hcover (by omega) len
        refine ⟨_, fd', l, hread, ?_, h.entry.symm ▸ hl, hin⟩
        rw [bytesAt_length, h.entry]
        exact Nat.min_le_right _ _

/-- `Load` inside the file stays in bounds, and behind its end it does not. -/
theorem load_inBounds (hfd : fd.fatEntry = p) (hmax : v.numFatEntries ≤ kMaxFatEntries)
    (hb : 0 < v.bytesPerCluster) (hl : v.FileChain p l)
    (hcover : v.fileSize p ≤ l.length * v.bytesPerCluster) {offset : Nat}
    (hoffset : offset ≤ v.fileSize p) (len : Nat) : fd.LoadInBounds v len offset := by
  obtain ⟨g, hload, hg, hgoff⟩ := ReadPosition.load hfd hmax hb hl (Nat.le_trans hoffset hcover)
  obtain ⟨g', hread, -, -, hin⟩ := hg.read hmax hb hl hcover (by omega) len
  refine ⟨g, hload, _, g', l, hread, ?_, hg.entry.symm ▸ hl, hin⟩
  rw [bytesAt_length, hg.entry]
  exact Nat.min_le_right _ _

theorem load_not_inBounds (hfd : fd.fatEntry = p) {len offset : Nat} (hpos : 0 < len)
    (hoffset : v.fileSize p < offset) (hsmall : offset < 2 ^ 64) : ¬ fd.LoadInBounds v len offset := by
  rintro ⟨g, hload, bytes, fd', m, hread, hlen, -, -⟩
  obtain ⟨r, -, rfl⟩ := Option.map_eq_some_iff.mp hload
  rw [read_length hread] at hlen
  dsimp only [FileDescriptor.new] at hlen
  rw [hfd] at hlen
  unfold sub64 at hlen
  omega

/-! ## The writers -/

/-- The place of a writer: it has written nothing yet, or its cursor is at least as far in the chain as it
has counted. -/
structure WriteCursor (v : Volume) (p : EntryPtr) (l : List Nat) (fd : FileDescriptor) : Prop where
  entry : fd.fatEntry = p
  offset : fd.wrClusterOff ≤ v.bytesPerCluster
  cluster : fd.wrCluster = 0 ∧ fd.wrOff = 0 ∨
    ∃ i, l[i]? = some fd.wrCluster ∧ fd.wrOff ≤ i * v.bytesPerCluster + fd.wrClusterOff

theorem WriteCursor.new (v : Volume) (p : EntryPtr) (l : List Nat) : v.WriteCursor p l (.new p) :=
  ⟨rfl, Nat.zero_le _, .inl ⟨rfl, rfl⟩⟩

theorem WriteCursor.mono (h : v.WriteCursor p l fd) (hbytes : v'.bytesPerCluster = v.bytesPerCluster)
    (hl : l <+: l') : v'.WriteCursor p l' fd := by
  obtain ⟨t, rfl⟩ := hl
  refine ⟨h.entry, hbytes ▸ h.offset, h.cluster.imp id ?_⟩
  rintro ⟨i, hget, hcount⟩
  rw [hbytes]
  exact ⟨i, (List.getElem?_append_left (List.getElem?_eq_some_iff.mp hget).1).trans hget, hcount⟩

/-- The file after one `Write` of one of its descriptors: its chain has grown, and covers its size. -/
structure Rewritten (v v' : Volume) (dir : Nat → Prop) (p : EntryPtr) (l l' : List Nat) : Prop where
  layout : v'.Layout dir
  file : v'.IsFile dir p
  bytesPerCluster : v'.bytesPerCluster = v.bytesPerCluster
  chain : v'.FileChain p l'
  grown : l <+: l'
  cover : v'.fileSize p ≤ l'.length * v'.bytesPerCluster

variable {dir : Nat → Prop} {buf : Nat → UInt8} {len n : Nat}

theorem WriteCursor.write (h : v.WriteCursor p l fd) (hlayout : v.Layout dir)
    (hfile : v.IsFile dir p) (hl : v.FileChain p l) (hw : fd.write v buf len = some (n, fd', v')) :
    ∃ l', Rewritten v v' dir p l l' ∧ v'.WriteCursor p l' fd' := by
  obtain ⟨rfl, hoff, hcluster⟩ := h
  have hb : 0 < v.bytesPerCluster := Nat.lt_of_lt_of_le (by decide) hlayout.formatted.bytesPerCluster
  have hcursor : fd.wrCluster = 0 ∨ fd.wrCluster ∈ l :=
    hcluster.imp And.left fun ⟨_, hget, _⟩ => List.mem_of_getElem? hget
  obtain ⟨s₀, s, hrun⟩ := write_run hlayout hfile hoff hl hcursor hw
  -- the stream starts where the descriptor is, and moves on by as much as is counted
  have hstart : fd.wrOff ≤ s₀.position v.bytesPerCluster := by
    unfold Stream.position
    rw [hrun.start.offset]
    rcases hcluster with ⟨-, hzero⟩ | ⟨i, hget, hcount⟩
    · omega
    · have hchain := hl.of_mem (List.mem_of_getElem? hget)
      rcases hrun.start.index with ⟨hzero, -⟩ | hindex
      · have hvalid := (hchain.valid _ (List.mem_of_getElem? hget)).1.1
        omega
      · rw [(List.getElem?_inj (List.getElem?_eq_some_iff.mp hget).1 hchain.nodup).mp
          (hget.trans hindex.symm)] at hcount
        exact hcount
  obtain ⟨hmoved, -⟩ := Stream.writeLoop_position buf len hb len 0 hrun.start.ok
  rw [hrun.run] at hmoved
  have hafter := hrun.after
  have hst := hafter.follows.stores
  have hbytes := hafter.written.bytesPerCluster
  have hlength : ((l ++ v.freeClusters).take s.clusters).length = s.clusters := by
    rw [List.length_take, Nat.min_eq_left hst.clusters_le]
  -- the size is that of the writes, modulo 2^32, and the cursor has come at least as far
  refine ⟨_, ⟨(hrun.fileChange hlayout hfile hl).layout hlayout, hrun.isFile hfile, hbytes,
    .inr hrun.chain, hrun.old_prefix, ?_⟩, hafter.fatEntry, ?_, .inr ⟨s.index, hrun.cursor, ?_⟩⟩
  · have hroom := hst.ok.position_le
    have hmod := Nat.mod_le (fd.wrOff + n) (2 ^ 32)
    rw [hafter.fileSize, hlength, hbytes]
    dsimp only at hmoved
    omega
  · rw [hafter.follows.offset, hbytes]
    exact hst.ok.offset_le
  · rw [hafter.wrOff, hafter.follows.offset, hbytes]
    unfold Stream.position at hstart hmoved
    dsimp only at hmoved
    omega

end Volume

/-! ## Interleavings -/

/-- A volume, the descriptor that reads a file, and other descriptors of the file. -/
structure SharedFile where
  volume : Volume
  reader : FileDescriptor
  writers : List FileDescriptor

inductive SharedEvent where
  | openWriter
  | write (i : Nat) (buf : Nat → UInt8) (len : Nat)
  | read (len : Nat)
  | load (len offset : Nat)

inductive SharedStep : SharedFile → SharedEvent → SharedFile → Prop
  | openWriter {s : SharedFile} :
      SharedStep s .openWriter
        { s with writers := FileDescriptor.new s.reader.fatEntry :: s.writers }
  | write {s : SharedFile} {i : Nat} {buf : Nat → UInt8} {len n : Nat} {fd fd' : FileDescriptor}
      {v' : Volume} (hfd : s.writers[i]? = some fd)
      (h : fd.write s.volume buf len = some (n, fd', v')) :
      SharedStep s (.write i buf len) { s with volume := v', writers := s.writers.set i fd' }
  | read {s : SharedFile} {len : Nat} {bytes : List UInt8} {fd' : FileDescriptor}
      (h : s.reader.read s.volume len = some (bytes, fd')) :
      SharedStep s (.read len) { s with reader := fd' }
  | load {s : SharedFile} {len offset : Nat} {bytes : List UInt8} {fd' : FileDescriptor}
      (h : s.reader.load s.volume len offset = some (bytes, fd')) :
      SharedStep s (.load len offset) { s with reader := fd' }

/-- A new descriptor of a file whose clusters cover its size.  The size of a cluster is the product of a
16-bit and an 8-bit field of the boot sector. -/
structure SharedFile.Start (s : SharedFile) : Prop where
  wellFormed : s.volume.WellFormed
  bytesPerCluster : s.volume.bytesPerCluster < 2 ^ 24
  file : s.volume.IsFile s.volume.DirCluster s.reader.fatEntry
  cover : ∀ l, s.volume.FileChain s.reader.fatEntry l →
    s.volume.fileSize s.reader.fatEntry ≤ l.length * s.volume.bytesPerCluster
  reader : s.reader = .new s.reader.fatEntry
  writers : s.writers = []

/-- The descriptors have a place each in the chain `l` of the file, which covers its size. -/
structure SharedFile.Inv (s : SharedFile) (dir : Nat → Prop) (l : List Nat) : Prop where
  layout : s.volume.Layout dir
  bytesPerCluster : s.volume.bytesPerCluster < 2 ^ 24
  file : s.volume.IsFile dir s.reader.fatEntry
  chain : s.volume.FileChain s.reader.fatEntry l
  cover : s.volume.fileSize s.reader.fatEntry ≤ l.length * s.volume.bytesPerCluster
  reader : s.volume.ReadCursor s.reader.fatEntry l s.reader
  writers : ∀ fd ∈ s.writers, s.volume.WriteCursor s.reader.fatEntry l fd

namespace SharedFile

variable {s s' : SharedFile} {dir : Nat → Prop} {l : List Nat}

theorem Start.inv (h : s.Start) : ∃ dir l, s.Inv dir l := by
  have hlayout := h.wellFormed.layout
  obtain ⟨l, hl⟩ := h.file.fileChain hlayout
  refine ⟨_, l, hlayout, h.bytesPerCluster, h.file, hl, h.cover l hl, ?_, fun fd hfd => ?_⟩
  · have hnew := ReadCursor.new s.volume s.reader.fatEntry l
    rwa [← h.reader] at hnew
  · rw [h.writers] at hfd
    cases hfd

theorem Inv.step {e : SharedEvent} (h : s.Inv dir l) (hs : SharedStep s e s') : ∃ l', s'.Inv dir l' := by
  have hb : 0 < s.volume.bytesPerCluster :=
    Nat.lt_of_lt_of_le (by decide) h.layout.formatted.bytesPerCluster
  cases hs with
  | openWriter =>
    refine ⟨l, h.1, h.2, h.3, h.4, h.5, h.6, fun fd hfd => ?_⟩
    rcases List.mem_cons.mp hfd with rfl | hfd
    · exact WriteCursor.new _ _ _
    · exact h.writers fd hfd
  | @write i buf len n fd fd' v' hfd hwrite =>
    obtain ⟨l', hnew, hfd'⟩ := (h.writers fd (List.mem_of_getElem? hfd)).write h.layout h.file h.chain hwrite
    refine ⟨l', hnew.layout, hnew.bytesPerCluster ▸ h.bytesPerCluster, hnew.file, hnew.chain, hnew.cover,
      h.reader.mono hnew.bytesPerCluster hnew.grown, fun g hg => ?_⟩
    rcases List.mem_or_eq_of_mem_set hg with hg | rfl
    · exact (h.writers g hg).mono hnew.bytesPerCluster hnew.grown
    · exact hfd'
  | @read len bytes fd' hread =>
    have hfd' := h.reader.read h.layout.formatted.numFatEntries hb h.chain hread
    have hentry := hfd'.entry
    -- `Read` leaves the volume alone and keeps the entry
    refine ⟨l, h.1, h.2, ?_, ?_, ?_, ?_, ?_⟩
    · exact hentry ▸ h.file
    · exact hentry ▸ h.chain
    · exact hentry ▸ h.cover
    · exact hentry.symm ▸ hfd'
    · exact hentry.symm ▸ h.writers
  | @load len offset bytes fd' hload =>
    obtain ⟨g, -, hload⟩ := Option.bind_eq_some_iff.mp hload
    obtain ⟨r, -, heq⟩ := Option.map_eq_some_iff.mp hload
    obtain ⟨-, rfl⟩ := Prod.mk.inj heq
    exact ⟨l, h⟩

end SharedFile

theorem twoClusterVolume_wellFormed : twoClusterVolume.WellFormed := by
  have hroot : twoClusterVolume.ClusterChain 2 [2] := ⟨.last (by decide), by decide⟩
  have hfile := twoClusterVolume_chain.clusterChain (by decide)
  have hslot : ∀ p, twoClusterVolume.Slot (· ∈ [2]) p → p = ⟨2, 0⟩ := by
    rintro ⟨c, i⟩ ⟨hc, hi⟩
    obtain rfl : c = 2 := List.mem_singleton.mp hc
    obtain rfl : i = 0 := Nat.lt_one_iff.mp hi
    rfl
  apply wellFormed_of_files ⟨by decide, by decide, .inr (by decide)⟩ hroot
  · intro p hp _
    obtain rfl := hslot p hp
    exact ⟨by decide, [3, 5], hfile, List.disjoint_singleton.mpr (by decide)⟩
  · intro p q hp hq hne
    exact absurd ((hslot p hp).trans (hslot q hq).symm) hne

/-- A new descriptor of the file of 40 bytes. -/
def newReader : SharedFile := ⟨twoClusterVolume, .new ⟨2, 0⟩, []⟩

theorem newReader_start : newReader.Start := by
  have hroot : twoClusterVolume.ClusterChain 2 [2] := ⟨.last (by decide), by decide⟩
  refine ⟨twoClusterVolume_wellFormed, by decide,
    ⟨⟨.root hroot (by decide), by decide⟩, by decide, by decide, by decide, by decide⟩, ?_, rfl, rfl⟩
  intro l hl
  rw [hl.unique twoClusterVolume_chain]
  decide

end MikanSaos
