import MikanSaos.FileSystem.FileRuns

/-!
# DeleteFile — what a deletion frees, and what it refuses

`DeleteFile` hands the first cluster of the file to `FreeCluster` without a look at it: a file that owns no
cluster has the number 0 there, which is a reserved cell of the FAT.  Before that it looks for a long name in
the entry that precedes the file's entry in memory, wherever the directory itself continues.
-/

open Reasoning

namespace MikanSaos

namespace Volume

variable {v v' : Volume} {p : EntryPtr} {path text : List UInt8} {postSlash : Bool} {l : List Nat}

/-- A plain file is refused for a long name, or its chain is freed and its slot marked. -/
theorem deleteFile_plain (hfind : v.findFile path 0 = some (some p, postSlash))
    (hslash : ¬ (v.attr p ≠ Attribute.kDirectory.code ∧ postSlash = true))
    (hdir : v.attr p ≠ Attribute.kDirectory.code) (hsystem : v.attr p ≠ Attribute.kSystem.code) :
    v.deleteFile path = if v.prevAttr p = Attribute.kLongName.code then
        some ((.kInvalidFile, v.formatName p ++ bytesOf " is a LNF\n"), v)
      else (freeCluster (v.numFatEntries + 1) v (v.firstCluster p)).map fun v =>
        ((.kSuccess, []), v.copyIn p.cluster p.offset (fun _ => kDeleted) 1) := by
  unfold deleteFile
  rw [hfind, Option.bind_some]
  dsimp only
  rw [if_neg hslash, if_neg hdir, if_neg hsystem]

/-- What is true when `DeleteFile` has succeeded. -/
theorem deleteFile_success (hdelete : v.deleteFile path = some ((.kSuccess, text), v')) :
    ∃ p postSlash v₁, v.findFile path 0 = some (some p, postSlash) ∧
      v.attr p ≠ Attribute.kDirectory.code ∧
      freeCluster (v.numFatEntries + 1) v (v.firstCluster p) = some v₁ ∧
      v' = v₁.copyIn p.cluster p.offset (fun _ => kDeleted) 1 := by
  unfold deleteFile at hdelete
  obtain ⟨⟨found, postSlash⟩, hfind, hdelete⟩ := Option.bind_eq_some_iff.mp hdelete
  cases found with
  | none => cases hdelete
  | some p =>
    dsimp only at hdelete
    -- every other branch returns an error
    split at hdelete
    · cases hdelete
    split at hdelete
    · cases hdelete
    rename_i hdir
    split at hdelete
    · cases hdelete
    split at hdelete
    · cases hdelete
    obtain ⟨v₁, hfree, heq⟩ := Option.map_eq_some_iff.mp hdelete
    exact ⟨p, postSlash, v₁, hfind, hdir, hfree, (congrArg Prod.snd heq).symm⟩

/-! ## What is freed -/

/-- The clusters of the file of `p` are free and nothing else in the FAT has changed; of the bytes, only the
first one of its name has, and the path does not lead to it any more. -/
structure FreedExactly (v v' : Volume) (path : List UInt8) (p : EntryPtr) : Prop where
  clusters : ∃ l, v.FileChain p l ∧ ∀ x, v'.fat x = if x ∈ l then 0 else v.fat x
  bytes : ∀ c k, v'.data c k = if c = p.cluster ∧ k = p.offset then kDeleted else v.data c k
  gone : ∀ postSlash, v'.findFile path 0 ≠ some (some p, postSlash)

theorem freeCluster_data {fuel c : Nat} {v₁ : Volume} (hfree : freeCluster fuel v c = some v₁) :
    v₁.data = v.data := by
  induction fuel generalizing v c v₁ with
  | zero => cases hfree
  | succ fuel ih =>
    rw [freeCluster] at hfree
    obtain ⟨next, -, hfree⟩ := Option.bind_eq_some_iff.mp hfree
    split at hfree
    · rw [← Option.some.inj hfree]
      rfl
    · obtain ⟨v₂, hrest, rfl⟩ := Option.map_eq_some_iff.mp hfree
      have hsame : v₂.data = v.data := ih hrest
      exact hsame

theorem data_markDeleted (v : Volume) (p : EntryPtr) (c k : Nat) :
    (v.copyIn p.cluster p.offset (fun _ => kDeleted) 1).data c k =
      if c = p.cluster ∧ k = p.offset then kDeleted else v.data c k := by
  unfold copyIn
  by_cases hc : c = p.cluster
  · subst hc
    rw [setCluster_self]
    by_cases hk : k = p.offset
    · rw [if_pos ⟨by omega, by omega⟩, if_pos ⟨rfl, hk⟩]
    · rw [if_neg (by omega), if_neg fun h => hk h.2]
  · rw [setCluster_of_ne _ _ hc, if_neg fun h => hc h.1]

/-- The entry before `p` in a directory with the clusters `l`. -/
def orderPrev (v : Volume) (l : List Nat) (p : EntryPtr) : Option EntryPtr :=
  if p.index = 0 then
    (l.takeWhile (· ≠ p.cluster)).getLast?.map fun c => ⟨c, v.entriesPerCluster - 1⟩
  else some ⟨p.cluster, p.index - 1⟩

def LongNameBefore (v : Volume) (l : List Nat) (p : EntryPtr) : Prop :=
  ∃ q, v.orderPrev l p = some q ∧ v.attr q = Attribute.kLongName.code

/-- The cluster that `file_entry - 1` points into. -/
def prevCluster (p : EntryPtr) : Nat := if p.index = 0 then p.cluster - 1 else p.cluster

/-- The attribute of the last entry of a cluster. -/
def lastAttr (v : Volume) (cluster : Nat) : UInt8 :=
  v.data cluster (v.bytesPerCluster - kEntryBytes + 11)

/-- The clusters of the directory that holds the entry `p`. -/
def DirectoryOf (v : Volume) (p : EntryPtr) (l : List Nat) : Prop :=
  ∃ o c, v.Owns v.DirCluster o c ∧ v.OwnsDirectory o ∧ v.ClusterChain c l ∧ p.cluster ∈ l

/-- `FreeCluster` comes to an end on the file: it has a chain, or cell 0 holds no number of a cluster. -/
def Freeable (v : Volume) (p : EntryPtr) : Prop :=
  v.firstCluster p = 0 → isEndOfClusterchain (v.fat 0) = true ∨ v.fat 0 = 0

/-- `DeleteFile` refuses the file exactly if a part of a long name stands before its entry, and looks for it
in the directory only. -/
structure RefusesLongNames (v : Volume) (path : List UInt8) (l : List Nat) (p : EntryPtr) : Prop where
  decides : (∃ text v', v.deleteFile path = some ((.kSuccess, text), v')) ↔ ¬ v.LongNameBefore l p
  reads : prevCluster p ∈ l

/-- `FreeCluster` does what it should, or leaves the FAT. -/
theorem freeCluster_isSome_iff (hwell : v.WellFormed) (hfile : v.IsFile v.DirCluster p) :
    (freeCluster (v.numFatEntries + 1) v (v.firstCluster p)).isSome ↔ v.Freeable p := by
  have h := hwell.layout
  unfold Freeable
  by_cases hfirst : v.firstCluster p = 0
  · have hpos := (h.inUse hfile.slot.1).1.2
    rw [hfirst, freeCluster_zero h.formatted (by omega)]
    split
    · rename_i hstop
      exact ⟨fun _ _ => hstop, fun _ => rfl⟩
    · rename_i hstop
      exact ⟨fun hsome => (by cases hsome), fun hfree => absurd (hfree rfl) hstop⟩
  · obtain ⟨l, hchain⟩ := hfile.fileChain h
    have hl := hchain.clusterChain hfirst
    rw [freeCluster_eq hl (Nat.le_succ_of_le hl.length_le)]
    exact ⟨fun _ hzero => absurd hzero hfirst, fun _ => rfl⟩

theorem deleteFile_succeeds_iff (hwell : v.WellFormed)
    (hfind : v.findFile path 0 = some (some p, false)) (hfile : v.IsFile v.DirCluster p)
    (hsystem : v.attr p ≠ Attribute.kSystem.code) :
    (∃ text v', v.deleteFile path = some ((.kSuccess, text), v')) ↔
      v.prevAttr p ≠ Attribute.kLongName.code ∧ v.Freeable p := by
  rw [deleteFile_plain hfind (fun h => by cases h.2) hfile.not_directory hsystem,
    ← freeCluster_isSome_iff hwell hfile, Option.isSome_iff_exists]
  by_cases hlong : v.prevAttr p = Attribute.kLongName.code
  · rw [if_pos hlong]
    constructor
    · rintro ⟨text, v', hrefused⟩
      cases hrefused
    · rintro ⟨hne, -⟩
      exact absurd hlong hne
  · rw [if_neg hlong]
    constructor
    · rintro ⟨text, v', hdelete⟩
      obtain ⟨v₁, hfree, -⟩ := Option.map_eq_some_iff.mp hdelete
      exact ⟨hlong, v₁, hfree⟩
    · rintro ⟨-, v₁, hfree⟩
      exact ⟨_, _, by rw [hfree, Option.map_some]⟩

/-- Inside a cluster the entry before `p` in memory is the one before it in the directory. -/
theorem longNameBefore_iff (l : List Nat) (hindex : p.index ≠ 0) :
    v.LongNameBefore l p ↔ v.prevAttr p = Attribute.kLongName.code := by
  unfold LongNameBefore orderPrev prevAttr
  rw [if_neg hindex, if_neg hindex]
  constructor
  · rintro ⟨q, hq, hattr⟩
    rwa [← Option.some.inj hq] at hattr
  · intro hattr
    exact ⟨_, rfl, hattr⟩

theorem not_and_iff_not {a f b : Prop} : (¬ a ∧ f ↔ ¬ b) ↔ (f → (a ↔ b)) ∧ (f ∨ b) := by
  by_cases hf : f
  · simp [hf, not_iff_not]
  · simp [hf]

/-- **When `DeleteFile` refuses the right files.**  A plain file is refused exactly for a long name before its
entry, by a look at the directory only, iff its entry is not the first one of a cluster, or the preceding
cluster of the volume belongs to the directory and ends with a part of a long name exactly if the preceding
cluster of the directory does; and if freeing the file cannot fail where it is not refused. -/
theorem deleteFile_refuses_iff (hwell : v.WellFormed)
    (hfind : v.findFile path 0 = some (some p, false)) (hfile : v.IsFile v.DirCluster p)
    (hsystem : v.attr p ≠ Attribute.kSystem.code) (hl : v.DirectoryOf p l) :
    RefusesLongNames v path l p ↔
      (p.index = 0 → p.cluster - 1 ∈ l ∧ (v.Freeable p →
        (v.lastAttr (p.cluster - 1) = Attribute.kLongName.code ↔ v.LongNameBefore l p))) ∧
      (v.Freeable p ∨ v.LongNameBefore l p) := by
  have hboth : RefusesLongNames v path l p ↔
      ((v.Freeable p → (v.prevAttr p = Attribute.kLongName.code ↔ v.LongNameBefore l p)) ∧
        (v.Freeable p ∨ v.LongNameBefore l p)) ∧ prevCluster p ∈ l := by
    rw [← not_and_iff_not, ← deleteFile_succeeds_iff hwell hfind hfile hsystem]
    exact ⟨fun h => ⟨h.decides, h.reads⟩, fun h => ⟨h.1, h.2⟩⟩
  rw [hboth]
  by_cases hindex : p.index = 0
  · have hprev : v.prevAttr p = v.lastAttr (p.cluster - 1) := if_pos hindex
    have hcluster : prevCluster p = p.cluster - 1 := if_pos hindex
    rw [hprev, hcluster]
    constructor
    · rintro ⟨⟨hagree, hfree⟩, hreads⟩
      exact ⟨fun _ => ⟨hreads, hagree⟩, hfree⟩
    · rintro ⟨hfirst, hfree⟩
      exact ⟨⟨(hfirst hindex).2, hfree⟩, (hfirst hindex).1⟩
  · -- the entry before `p` in memory is the one before it in the directory
    obtain ⟨o, c, -, -, -, hmem⟩ := hl
    have hcluster : prevCluster p = p.cluster := if_neg hindex
    have hlong := (longNameBefore_iff (v := v) l hindex).symm
    constructor
    · rintro ⟨⟨-, hfree⟩, -⟩
      exact ⟨fun hzero => absurd hzero hindex, hfree⟩
    · rintro ⟨-, hfree⟩
      exact ⟨⟨fun _ => hlong, hfree⟩, hcluster ▸ hmem⟩

end Volume

open Volume

/-- A root directory in the clusters 2 and 5, with one entry in each: "A" is empty, and "B" has cluster 4,
where the byte of an attribute is that of a long name. -/
def splitVolume : Volume where
  bytesPerCluster := 32
  numFatEntries := 8
  rootCluster := 2
  fat c := if c = 0 then 0x0ffffff8 else if c = 2 then 5 else
    if c = 1 ∨ c = 4 ∨ c = 5 then kEndOfClusterchain else 0
  data c k :=
    if c = 2 then (bytesOf "A          " ++ [Attribute.kArchive.code]).getD k 0
    else if c = 4 then if k = 11 then Attribute.kLongName.code else 0
    else if c = 5 then
      (bytesOf "B          " ++ Attribute.kArchive.code :: List.replicate 14 0 ++ [4, 0, 32]).getD k 0
    else 0

theorem splitVolume_root : splitVolume.ClusterChain 2 [2, 5] :=
  ⟨.link (by decide) (.last (by decide)), by decide⟩

theorem splitVolume_wellFormed : splitVolume.WellFormed := by
  have hfile : splitVolume.ClusterChain 4 [4] := ⟨.last (by decide), by decide⟩
  -- "B" is the only entry with a chain
  have hlive : ∀ p, splitVolume.Slot (· ∈ [2, 5]) p → splitVolume.IsLive p → p = ⟨5, 0⟩ := by
    rintro ⟨c, i⟩ ⟨hc, hi⟩ hlive
    obtain rfl : i = 0 := Nat.lt_one_iff.mp hi
    rcases List.mem_pair.mp hc with rfl | rfl
    · exact absurd hlive.firstCluster_ne_zero (by decide)
    · rfl
  apply wellFormed_of_files ⟨by decide, by decide, .inr (by decide)⟩ splitVolume_root
  · intro p hp hpl
    obtain rfl := hlive p hp hpl
    exact ⟨by decide, [4], hfile, List.singleton_disjoint.mpr (by decide)⟩
  · intro p q hp hq hne hpl hql
    exact absurd ((hlive p hp hpl).trans (hlive q hq hql).symm) hne

/-- A root directory of one cluster: a part of a long name, and the empty file "A" behind it. -/
def longNameVolume : Volume where
  bytesPerCluster := 64
  numFatEntries := 4
  rootCluster := 2
  fat c := if c < 3 then kEndOfClusterchain else 0
  data c k :=
    if c = 2 then
      if k = 11 then Attribute.kLongName.code
      else (List.replicate 32 0x42 ++ bytesOf "A          " ++ [Attribute.kArchive.code]).getD k 0
    else 0

theorem longNameVolume_root : longNameVolume.ClusterChain 2 [2] := ⟨.last (by decide), by decide⟩

theorem longNameVolume_wellFormed : longNameVolume.WellFormed := by
  have hlive : ∀ p, longNameVolume.Slot (· ∈ [2]) p → ¬ longNameVolume.IsLive p := by
    rintro ⟨c, i⟩ ⟨hc, hi⟩ hlive
    obtain rfl : c = 2 := List.mem_singleton.mp hc
    have hcases : i = 0 ∨ i = 1 := Nat.le_one_iff_eq_zero_or_eq_one.mp (Nat.lt_succ_iff.mp hi)
    rcases hcases with rfl | rfl
    · exact absurd hlive.not_longName (by decide)
    · exact absurd hlive.firstCluster_ne_zero (by decide)
  apply wellFormed_of_files ⟨by decide, by decide, .inr (by decide)⟩ longNameVolume_root
  · intro p hp hpl
    exact absurd hpl (hlive p hp)
  · intro p q hp _ _ hpl
    exact absurd hpl (hlive p hp)

/-- The second entry of a cluster is refused for the long name before it. -/
theorem deleteFile_refuses_iff_long_name :
    RefusesLongNames longNameVolume (bytesOf "A") [2] ⟨2, 1⟩ := by
  have hdir : longNameVolume.DirectoryOf ⟨2, 1⟩ [2] :=
    ⟨none, 2, rfl, trivial, longNameVolume_root, by decide⟩
  have hfile : longNameVolume.IsFile longNameVolume.DirCluster ⟨2, 1⟩ :=
    ⟨⟨.root longNameVolume_root (by decide), by decide⟩, by decide, by decide, by decide, by decide⟩
  exact (deleteFile_refuses_iff longNameVolume_wellFormed (by decide) hfile (by decide) hdir).mpr
    ⟨fun hzero => absurd hzero (by decide), .inl fun _ => .inl (by decide)⟩

/-- "B" is the first entry of cluster 5: it is refused for a byte of its own contents in cluster 4. -/
theorem deleteFile_reads_other_cluster : splitVolume.WellFormed ∧
    splitVolume.findFile (bytesOf "B") 0 = some (some ⟨5, 0⟩, false) ∧
    splitVolume.IsFile splitVolume.DirCluster ⟨5, 0⟩ ∧ splitVolume.DirectoryOf ⟨5, 0⟩ [2, 5] ∧
    (splitVolume.deleteFile (bytesOf "B")).map (fun r => r.1.1) = some .kInvalidFile ∧
    ¬ splitVolume.LongNameBefore [2, 5] ⟨5, 0⟩ ∧
    ¬ RefusesLongNames splitVolume (bytesOf "B") [2, 5] ⟨5, 0⟩ := by
  refine ⟨splitVolume_wellFormed, by decide, ?_, ?_, by decide, ?_,
    fun h => absurd h.reads (by decide)⟩
  · exact ⟨⟨.root splitVolume_root (by decide), by decide⟩, by decide, by decide, by decide, by decide⟩
  · exact ⟨none, 2, rfl, trivial, splitVolume_root, by decide⟩
  · rintro ⟨q, hq, hattr⟩
    have hprev : splitVolume.orderPrev [2, 5] ⟨5, 0⟩ = some ⟨2, 0⟩ := by decide
    rw [← Option.some.inj (hprev.symm.trans hq)] at hattr
    exact absurd hattr (by decide)

end MikanSaos
