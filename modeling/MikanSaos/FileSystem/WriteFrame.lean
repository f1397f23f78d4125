import MikanSaos.FileSystem.FileRuns
import MikanSaos.FileSystem.ReadRun
import MikanSaos.FileSystem.StreamRun

/-!
# WriteFrame — one `Write` and the other files

A `Write` changes the clusters of its own file, clusters that were free, and the last bytes of its own
entry.  The chains of other files are apart from all of these, so that reading them takes the same steps as
before.
-/

open Reasoning

namespace MikanSaos

/-! ## How many clusters a `Write` takes -/

namespace Stream

variable {b : Nat} {s : Stream}

theorem clustersFor_mono {n m : Nat} (h : n ≤ m) : clustersFor b n ≤ clustersFor b m :=
  Nat.div_le_div_right (by omega)

theorem clustersFor_sub (hb : 0 < b) {left : Nat} (h : b ≤ left) :
    clustersFor b left = clustersFor b (left - b) + 1 := by
  unfold clustersFor
  rw [show left + b - 1 = (left - b + b - 1) + b by omega, Nat.add_div_right _ hb]

variable (buf : Nat → UInt8) (len : Nat) in
/-- Each time the chain is full it grows by the clusters for all bytes left, and one of them is filled
before it is full again. -/
theorem writeLoop_clusters_le (hb : 0 < b) (fuel total : Nat) (h : s.Ok b) :
    (writeLoop b buf len fuel total s).2.clusters ≤
      s.clusters + clustersFor b (len - total) * clustersFor b (len - total) := by
  induction fuel generalizing total s with
  | zero => exact Nat.le_add_right _ _
  | succ fuel ih =>
    rw [writeLoop]
    split
    · rename_i hmore
      have hleft : 0 < len - total := by omega
      obtain ⟨hok, -⟩ := h.advance hb hleft
      have hput := fun n => hok.put (fun k => buf (total + k)) (n := n)
      dsimp only
      generalize hn : min len (b - (s.advance b (len - total)).offset) = n
      have hrest := ih (total + n) (hput n (by have := hok.offset_le; omega))
      change _ ≤ (s.advance b (len - total)).clusters + _ at hrest
      apply Nat.le_trans hrest
      have hsub : len - (total + n) = len - total - n := by omega
      rw [hsub]
      by_cases hgrown : s.offset = b ∧ ¬ s.index + 1 < s.clusters
      · -- the chain has grown, and the cursor is at the start of a cluster
        have hadv : s.advance b (len - total) = { s with
            clusters := s.clusters + clustersFor b (len - total),
            index := s.clusters + clustersFor b (len - total) - 1, offset := 0 } := by
          unfold Stream.advance
          rw [if_pos hgrown.1, if_neg hgrown.2]
        rw [hadv] at hn ⊢
        dsimp only at hn ⊢
        have hpos := clustersFor_pos hb hleft
        have hless : clustersFor b (len - total - n) ≤ clustersFor b (len - total) - 1 := by
          by_cases hwhole : b ≤ len - total
          · have hnb : n = b := by omega
            rw [hnb, clustersFor_sub hb hwhole]
            omega
          · have hdone : len - total - n = 0 := by omega
            rw [hdone]
            unfold clustersFor
            rw [Nat.div_eq_of_lt (by omega)]
            exact Nat.zero_le _
        -- `k` clusters now and `m * m` later, where `m` is less than `k`
        generalize clustersFor b (len - total - n) = m at hless ⊢
        generalize clustersFor b (len - total) = k at hless hpos ⊢
        have hmul := Nat.mul_le_mul hless (show m ≤ k by omega)
        rw [Nat.sub_mul, Nat.one_mul] at hmul
        have hkk : k ≤ k * k := Nat.le_mul_of_pos_left k hpos
        omega
      -- no cluster is added in this round
      · have hadv : (s.advance b (len - total)).clusters = s.clusters := by
          unfold Stream.advance
          split
          · rename_i hfull
            rw [if_pos (not_not.mp fun hlast => hgrown ⟨hfull, hlast⟩)]
          · rfl
        have hmono := clustersFor_mono (b := b) (Nat.sub_le (len - total) n)
        rw [hadv]
        exact Nat.add_le_add_left (Nat.mul_le_mul hmono hmono) _
    · exact Nat.le_add_right _ _

end Stream

/-! ## Reading from clusters that stay as they are -/

namespace Volume

variable {v v' : Volume} {p : EntryPtr} {l old : List Nat} {fd : FileDescriptor}

/-- The cells and the bytes of the clusters `l` are the same. -/
structure SameClusters (v v' : Volume) (l : List Nat) : Prop where
  bytesPerCluster : v'.bytesPerCluster = v.bytesPerCluster
  numFatEntries : v'.numFatEntries = v.numFatEntries
  fat : ∀ x ∈ l, v'.fat x = v.fat x
  data : ∀ x ∈ l, v'.data x = v.data x

theorem SameClusters.isCluster (h : SameClusters v v' l) (x : Nat) :
    v'.IsCluster x ↔ v.IsCluster x := by
  unfold IsCluster
  rw [h.numFatEntries]

theorem SameClusters.nextCluster (h : SameClusters v v' l) {x : Nat} (hx : x ∈ l) :
    v'.nextCluster x = v.nextCluster x := by
  unfold Volume.nextCluster getFAT
  rw [h.numFatEntries, h.fat x hx]

/-- A walk along the clusters of a file stays in them until it comes to the end mark, which is no
cluster. -/
theorem FileChain.next_mem (hmax : v.numFatEntries ≤ kMaxFatEntries) (h : v.FileChain p l) {x y : Nat}
    (hx : x ∈ l) (hy : v.nextCluster x = some y) : y ∈ l ∨ ¬ v.IsCluster y := by
  have hl := h.of_mem hx
  obtain ⟨i, hi⟩ := List.mem_iff_getElem?.mp hx
  obtain ⟨hnext, -⟩ := nextCluster_eq hmax hl hi
  cases hy.symm.trans hnext
  cases hlast : l[i + 1]? with
  | none => exact .inr (not_isCluster_end hmax)
  | some z => exact .inl (List.mem_of_getElem? hlast)

/-- The loop of `Read` sees the clusters of its file only. -/
theorem readLoop_congr (hmax : v.numFatEntries ≤ kMaxFatEntries) (h : v.FileChain p l)
    (hsame : SameClusters v v' l) (fuel remaining x offset : Nat) (hx : x ∈ l ∨ ¬ v.IsCluster x) :
    v'.readLoop fuel remaining x offset = v.readLoop fuel remaining x offset ∧
      ∀ r, v.readLoop fuel remaining x offset = some r → r.2.1 ∈ l ∨ ¬ v.IsCluster r.2.1 := by
  induction fuel generalizing remaining x offset with
  | zero =>
    cases remaining with
    | zero => exact ⟨rfl, fun r hr => Option.some.inj hr ▸ hx⟩
    | succ remaining => exact ⟨rfl, fun r hr => by cases hr⟩
  | succ fuel ih =>
    cases remaining with
    | zero => exact ⟨rfl, fun r hr => Option.some.inj hr ▸ hx⟩
    | succ remaining =>
      by_cases hcluster : v.IsCluster x
      · have hmem := hx.resolve_right (not_not.mpr hcluster)
        rw [readLoop, readLoop, if_pos hcluster, if_pos ((hsame.isCluster x).mpr hcluster),
          hsame.bytesPerCluster, hsame.data x hmem, hsame.nextCluster hmem]
        dsimp only
        generalize min (remaining + 1) (v.bytesPerCluster - offset) = n
        generalize hnext : (if offset + n = v.bytesPerCluster then
          (v.nextCluster x).map fun next => (next, 0) else some (x, offset + n)) = next
        cases next with
        | none => exact ⟨rfl, fun r hr => by cases hr⟩
        | some next =>
          -- the next round starts in the file again, or at no cluster
          have hin : next.1 ∈ l ∨ ¬ v.IsCluster next.1 := by
            split at hnext
            · obtain ⟨y, hy, rfl⟩ := Option.map_eq_some_iff.mp hnext
              exact h.next_mem hmax hmem hy
            · cases hnext
              exact .inl hmem
          obtain ⟨heq, hstay⟩ := ih (remaining + 1 - n) next.1 next.2 hin
          rw [Option.bind_some, Option.bind_some]
          refine ⟨by rw [heq], fun r hr => ?_⟩
          obtain ⟨r', hr', rfl⟩ := Option.map_eq_some_iff.mp hr
          exact hstay r' hr'
      -- outside the clusters both loops fail
      · rw [readLoop, readLoop, if_neg hcluster, if_neg (mt (hsame.isCluster x).mp hcluster)]
        exact ⟨rfl, fun r hr => by cases hr⟩

/-- The cluster that a descriptor goes on reading at: none yet, one of the clusters `l`, or the end. -/
def ReadsIn (fd : FileDescriptor) (l : List Nat) : Prop :=
  fd.rdCluster = 0 ∨ fd.rdCluster ∈ l ∨ fd.rdCluster = kEndOfClusterchain

theorem read_congr (hmax : v.numFatEntries ≤ kMaxFatEntries) (h : v.FileChain fd.fatEntry l)
    (hsame : SameClusters v v' l) (hentry : SameEntry v v' fd.fatEntry fun _ => False)
    (hfd : fd.rdCluster = 0 ∨ fd.rdCluster ∈ l ∨ ¬ v.IsCluster fd.rdCluster) (len : Nat) :
    fd.read v' len = fd.read v len ∧ ∀ r, fd.read v len = some r → r.2.fatEntry = fd.fatEntry ∧
      (r.2.rdCluster ∈ l ∨ ¬ v.IsCluster r.2.rdCluster) := by
  have hfirst := firstCluster_congr hentry fun _ _ _ => id
  have hsize := fileSize_congr hentry fun _ _ => id
  -- a new reader starts with the first cluster, which the entry still names
  have hstart : (if fd.rdCluster = 0 then v.firstCluster fd.fatEntry else fd.rdCluster) ∈ l ∨
      ¬ v.IsCluster (if fd.rdCluster = 0 then v.firstCluster fd.fatEntry else fd.rdCluster) := by
    by_cases hzero : fd.rdCluster = 0
    · rw [if_pos hzero]
      rcases h with ⟨hnone, -⟩ | hl
      · rw [hnone]
        exact .inr fun hc => absurd hc.1 (by decide)
      · exact .inl hl.chain.head_mem
    · rw [if_neg hzero]
      exact hfd.resolve_left hzero
  unfold FileDescriptor.read
  rw [hfirst, hsize]
  dsimp only
  generalize (if fd.rdCluster = 0 then v.firstCluster fd.fatEntry else fd.rdCluster) = x at hstart
  generalize min len (sub64 (v.fileSize fd.fatEntry) fd.rdOff) = n
  obtain ⟨heq, hstay⟩ := readLoop_congr hmax h hsame n n x fd.rdClusterOff hstart
  refine ⟨by rw [heq], fun r hr => ?_⟩
  obtain ⟨r', hr', rfl⟩ := Option.map_eq_some_iff.mp hr
  exact ⟨rfl, hstay r' hr'⟩

/-- All reads of a file whose clusters and whose entry stay as they are return what they did. -/
theorem readAll_congr (hmax : v.numFatEntries ≤ kMaxFatEntries) (h : v.FileChain p l)
    (hsame : SameClusters v v' l) (hentry : SameEntry v v' p fun _ => False) (lens : List Nat)
    (hfd : fd.fatEntry = p ∧ (fd.rdCluster = 0 ∨ fd.rdCluster ∈ l ∨ ¬ v.IsCluster fd.rdCluster)) :
    fd.readAll v' lens = fd.readAll v lens := by
  induction lens generalizing fd with
  | nil => rfl
  | cons len lens ih =>
    obtain ⟨rfl, hcluster⟩ := hfd
    obtain ⟨heq, hnext⟩ := read_congr hmax h hsame hentry hcluster len
    rw [FileDescriptor.readAll, FileDescriptor.readAll, heq]
    cases hread : fd.read v len with
    | none => rfl
    | some r =>
      obtain ⟨bytes, fd₁⟩ := r
      obtain ⟨hsameEntry, hin⟩ := hnext _ hread
      rw [Option.bind_some, Option.bind_some]
      dsimp only
      rw [ih ⟨hsameEntry, .inr hin⟩]

/-! ## The frame of a `Write` -/

/-- Everything that does not belong to the file of the entry `p` is as it was: the cells of other chains,
other entries, and what descriptors of other files read. -/
structure OthersKept (v v' : Volume) (p : EntryPtr) : Prop where
  fat : ∀ o c l, v.Owns v.DirCluster o c → o ≠ some p → v.ClusterChain c l →
    ∀ x ∈ l, v'.fat x = v.fat x
  entries : ∀ q ≠ p, v.Slot v.DirCluster q → SameEntry v v' q fun _ => False
  reads : ∀ (g : FileDescriptor) (l : List Nat), g.fatEntry ≠ p → v.IsFile v.DirCluster g.fatEntry →
    v.FileChain g.fatEntry l → ReadsIn g l → ∀ lens, g.readAll v' lens = g.readAll v lens

theorem Written.data_eq {area : List Nat} (hw : Written v v' area p) {x : Nat} (hx : x ∉ area)
    (hne : x ≠ p.cluster) : v'.data x = v.data x := by
  funext a
  have hbyte := hw.entries ⟨x, a / kEntryBytes⟩ hx (a % kEntryBytes) (Nat.mod_lt a (by decide))
    fun hc => hne (congrArg EntryPtr.cluster hc.1)
  unfold entryByte EntryPtr.offset at hbyte
  rwa [Nat.div_add_mod] at hbyte

variable {buf : Nat → UInt8} {len n : Nat} {fd' : FileDescriptor} {s₀ s : Stream}

/-- The clusters that a `Write` may change: those of its file, and the free ones. -/
theorem WriteRun.apart (h : v.Layout v.DirCluster) (hfile : v.IsFile v.DirCluster fd.fatEntry)
    (hold : v.FileChain fd.fatEntry old) {o : Option EntryPtr} {c : Nat}
    (hc : v.Owns v.DirCluster o c) (ho : o ≠ some fd.fatEntry) (hl : v.ClusterChain c l) {x : Nat}
    (hx : x ∈ l) : x ∉ old ++ v.freeClusters := by
  intro hmem
  rcases List.mem_append.mp hmem with hmem | hmem
  -- two owners share no cluster
  · have hm := hold.of_mem hmem
    exact h.family.disjoint o (some fd.fatEntry) _ _ _ _ hc
      ⟨hfile.slot, hfile.isLive hm.ne_zero, rfl⟩ ho hl.chain hm.chain hx hmem
  · exact hl.not_free hx hmem

theorem WriteRun.othersKept (hw : v.WriteRun fd old buf len n fd' v' s₀ s)
    (h : v.Layout v.DirCluster) (hfile : v.IsFile v.DirCluster fd.fatEntry)
    (hold : v.FileChain fd.fatEntry old) : OthersKept v v' fd.fatEntry := by
  have hmax := h.formatted.numFatEntries
  have hwritten := hw.after.written
  have hentries := (hw.fileChange h hfile hold).entries
  refine ⟨fun o c l hc ho hl x hx => hwritten.fat x (apart h hfile hold hc ho hl hx), hentries, ?_⟩
  intro g l hg hgfile hgl hin lens
  have hapart : ∀ x ∈ l, x ∉ old ++ v.freeClusters ∧ x ≠ fd.fatEntry.cluster := by
    intro x hx
    have hl := hgl.of_mem hx
    have howns : v.Owns v.DirCluster (some g.fatEntry) (v.firstCluster g.fatEntry) :=
      ⟨hgfile.slot, hgfile.isLive hl.ne_zero, rfl⟩
    refine ⟨apart h hfile hold howns (fun he => hg (Option.some.inj he)) hl hx, ?_⟩
    -- the entry of the file lies in a directory, and no file has clusters there
    rintro rfl
    exact h.not_dir_of_file howns hgfile.not_directory hl hx hfile.slot.1
  apply readAll_congr hmax hgl _ (hentries _ hg hgfile.slot) lens
  · refine ⟨rfl, hin.imp id fun hin => hin.imp id fun hend => ?_⟩
    rw [hend]
    exact not_isCluster_end hmax
  · exact ⟨hwritten.bytesPerCluster, hwritten.numFatEntries,
      fun x hx => hwritten.fat x (hapart x hx).1,
      fun x hx => hwritten.data_eq (hapart x hx).1 (hapart x hx).2⟩

/-- **A `Write` does not disturb other files.**  On a well-formed volume with clusters enough, `Write` on a
descriptor whose cursor is at the start of its file or in one of its clusters returns; and whenever it
returns, everything that belongs to other files and to directories is as it was. -/
theorem write_frame (hwell : v.WellFormed) (hfile : v.IsFile v.DirCluster fd.fatEntry)
    (hold : v.FileChain fd.fatEntry old) (hcursor : fd.wrCluster = 0 ∨ fd.wrCluster ∈ old)
    (hoff : fd.wrClusterOff ≤ v.bytesPerCluster) (buf : Nat → UInt8) (len : Nat) :
    (max 1 (v.numCluster len) + v.numCluster len * v.numCluster len ≤ v.freeClusters.length →
      (fd.write v buf len).isSome) ∧
    ∀ n fd' v', fd.write v buf len = some (n, fd', v') → OthersKept v v' fd.fatEntry := by
  have h := hwell.layout
  have hb : 0 < v.bytesPerCluster := Nat.lt_of_lt_of_le (by decide) h.formatted.bytesPerCluster
  constructor
  · intro hroom
    obtain ⟨s₀, hstart, hrun⟩ := write_from h hfile hoff hold hcursor buf len
    rcases hloop : Stream.writeLoop v.bytesPerCluster buf len len 0 s₀ with ⟨n, s⟩
    have hgrow := Stream.writeLoop_clusters_le buf len hb len 0 hstart.ok
    rw [hloop, Nat.sub_zero] at hgrow
    change s.clusters ≤ s₀.clusters + v.numCluster len * v.numCluster len at hgrow
    have hclusters : s₀.clusters ≤ old.length + max 1 (v.numCluster len) := by
      rw [hstart.clusters]
      split
      · exact Nat.le_add_left _ _
      · exact Nat.le_add_right _ _
    obtain ⟨fd', v', hwrite, -⟩ := (hrun n s hloop).2 (by
      rw [List.length_append]
      omega)
    rw [hwrite]
    rfl
  · intro n fd' v' hwrite
    obtain ⟨s₀, s, hrun⟩ := write_run h hfile hoff hold hcursor hwrite
    exact hrun.othersKept h hfile hold

end Volume

open Volume

/-- A descriptor of "A" that has filled its cluster. -/
def fullDescriptor : FileDescriptor := { fatEntry := ⟨2, 0⟩, wrOff := 32, wrCluster := 3, wrClusterOff := 32 }

theorem write_frame_full_cluster :
    (fullDescriptor.write oneFileVolume (fun _ => 0x2a) 1).isSome ∧
    ∀ n fd' v', fullDescriptor.write oneFileVolume (fun _ => 0x2a) 1 = some (n, fd', v') →
      OthersKept oneFileVolume v' fullDescriptor.fatEntry := by
  have hroot : oneFileVolume.ClusterChain 2 [2] := ⟨.last (by decide), by decide⟩
  have hfile : oneFileVolume.IsFile oneFileVolume.DirCluster ⟨2, 0⟩ :=
    ⟨⟨.root hroot (by decide), by decide⟩, by decide, by decide, by decide, by decide⟩
  have hold : oneFileVolume.FileChain ⟨2, 0⟩ [3] := .inr ⟨.last (by decide), by decide⟩
  have hframe := write_frame oneFileVolume_wellFormed (show oneFileVolume.IsFile _ fullDescriptor.fatEntry from hfile) hold
    (.inr (by decide)) (by decide) (fun _ => 0x2a) 1
  exact ⟨hframe.1 (by decide), hframe.2⟩

end MikanSaos
