import MikanSaos.FileSystem.CreateEntry

/-!
# CreateFrame — `CreateFile` writes to one slot of the parent directory

`FindFile` reads a first cluster of 0 as the root directory; `CreateFile` takes the first cluster of the
parent as it is, and looks for a slot in cluster 0, which is before the data area.
-/

open Reasoning

namespace MikanSaos

namespace Volume

variable {v v' u : Volume} {dir : Nat → Prop} {c e x cluster fuel : Nat} {l : List Nat}
  {p q : EntryPtr} {path filename parentDirName : List UInt8}

/-! ## The frame -/

/-- The volumes are the same but for the bytes of the entry `p`. -/
structure OnlyEntry (v v' : Volume) (p : EntryPtr) : Prop where
  bytesPerCluster : v'.bytesPerCluster = v.bytesPerCluster
  numFatEntries : v'.numFatEntries = v.numFatEntries
  rootCluster : v'.rootCluster = v.rootCluster
  fat : v'.fat = v.fat
  data : ∀ c k, ¬ (c = p.cluster ∧ p.offset ≤ k ∧ k < p.offset + kEntryBytes) →
    v'.data c k = v.data c k

/-- The entry `p` is put into the directory with the clusters `l`: into a slot that was unused, or, when there
is none, into a free cluster that is linked behind the last one and cleared. -/
def PutsEntry (v v' : Volume) (l : List Nat) (p : EntryPtr) : Prop :=
  p ∈ v.slotsOf l ∧ v.isUnused p ∧ OnlyEntry v v' p ∨
    (∀ q ∈ v.slotsOf l, ¬ v.isUnused q) ∧ ∃ e x, l.getLast? = some e ∧ x ∈ v.freeClusters ∧
      p = ⟨x, 0⟩ ∧ OnlyEntry ((v.relink e [x]).clearCluster x) v' p

/-- The directory that `FindFile` resolves the parent path to. -/
def parentCluster (v : Volume) (path : List UInt8) : Option Nat :=
  match splitLast kSlash path with
  | some (b :: parentDirName, _) => (v.findFile (b :: parentDirName) 0).bind fun r =>
    r.1.map fun q => v.directoryAt (v.firstCluster q)
  | _ => some v.rootCluster

/-- `CreateFile` reports an error and changes nothing, or puts one entry into the parent directory. -/
def CreatesInParent (v : Volume) (path : List UInt8) : Prop :=
  ∃ r v', v.createFile path = some (r, v') ∧
    (r.value = none ∧ r.error ≠ .kSuccess ∧ v' = v ∨
      ∃ p c l, r = ⟨some p, .kSuccess⟩ ∧ v.parentCluster path = some c ∧ v.ClusterChain c l ∧
        PutsEntry v v' l p)

/-- `FindFile` returns, and a directory that it finds has a chain of clusters. -/
def LeadsToDirectory (v : Volume) (parentDirName : List UInt8) : Prop :=
  ∃ r, v.findFile parentDirName 0 = some r ∧ ∀ q, r.1 = some q →
    v.attr q = Attribute.kDirectory.code → ∃ l, v.ClusterChain (v.firstCluster q) l

theorem onlyEntry_create (v : Volume) (p : EntryPtr) (filename : List UInt8) :
    OnlyEntry v ((v.setFileName p filename).setFileSize p 0) p := by
  refine ⟨rfl, rfl, rfl, rfl, fun c k hk => ?_⟩
  by_cases hc : c = p.cluster
  · -- both fields are inside the entry
    subst hc
    have hout : ¬ (p.offset ≤ k ∧ k < p.offset + kEntryBytes) := fun h => hk ⟨rfl, h⟩
    unfold kEntryBytes at hout
    unfold setFileSize setField
    rw [setCluster_self, writeLE, if_neg (by omega)]
    unfold setFileName copyIn
    rw [setCluster_self]
    exact if_neg (by omega)
  · unfold setFileSize setField setFileName copyIn
    rw [setCluster_of_ne _ _ hc, setCluster_of_ne _ _ hc]

/-- In a directory with a chain, on a volume with a free cluster, an entry is put. -/
theorem createIn_puts (hmax : v.numFatEntries ≤ kMaxFatEntries) (hfree : v.freeClusters ≠ [])
    (hl : v.ClusterChain c l) (filename : List UInt8) :
    ∃ p v', v.createIn c filename = some (⟨some p, .kSuccess⟩, v') ∧ PutsEntry v v' l p := by
  obtain ⟨x, free, hx⟩ := List.exists_cons_of_ne_nil hfree
  have hlast := List.getLast?_eq_some_getLast hl.chain.ne_nil
  unfold createIn
  rw [allocateEntry_eq hmax hl hlast (Nat.le_succ_of_le hl.length_le), hx]
  cases hfind : (v.slotsOf l).find? v.isUnused with
  | some p =>
    -- a slot of one of the clusters
    exact ⟨p, _, rfl, .inl ⟨List.mem_of_find?_eq_some hfind, List.find?_some hfind,
      onlyEntry_create v p filename⟩⟩
  | none =>
    -- behind the last cluster
    exact ⟨⟨x, 0⟩, _, rfl, .inr ⟨List.find?_eq_none.mp hfind, _, x, hlast,
      hx ▸ List.mem_cons_self, rfl, onlyEntry_create _ _ filename⟩⟩

/-- Cluster 0 is no cluster to look for a slot in. -/
theorem createIn_zero (v : Volume) (filename : List UInt8) : v.createIn 0 filename = none := by
  unfold createIn
  rw [allocateEntry, if_neg fun h : v.IsCluster 0 => absurd h.1 (by decide)]
  rfl

/-- What `CreateFile` makes of the result of `FindFile` for the parent. -/
def parentResult (v : Volume) (filename : List UInt8) :
    Option EntryPtr × Bool → Except Error (Nat × List UInt8)
  | (none, _) => .error .kNoSuchEntry
  | (some parentDir, _) =>
    if v.attr parentDir ≠ Attribute.kDirectory.code then .error .kIsNotDirectory
    else .ok (v.firstCluster parentDir, filename)

theorem parentDirectory_eq (hsplit : splitLast kSlash path = some (parentDirName, filename))
    (hparent : parentDirName ≠ []) (hname : filename ≠ []) :
    v.parentDirectory path = (v.findFile parentDirName 0).map (v.parentResult filename) ∧
      v.parentCluster path = (v.findFile parentDirName 0).bind fun r =>
        r.1.map fun q => v.directoryAt (v.firstCluster q) := by
  constructor
  · rw [parentDirectory, hsplit]
    dsimp only
    rw [if_neg hname, if_neg hparent]
    rfl
  · obtain ⟨b, parentDirName, rfl⟩ := List.exists_cons_of_ne_nil hparent
    rw [parentCluster, hsplit]

/-- The parent is the root directory. -/
theorem createsInParent_root (hwell : v.WellFormed) (hfree : v.freeClusters ≠ [])
    (filename : List UInt8) (hparent : v.parentDirectory path = some (.ok (v.rootCluster, filename)))
    (hcluster : v.parentCluster path = some v.rootCluster) : v.CreatesInParent path := by
  obtain ⟨root, hroot⟩ := hwell.chain none v.rootCluster rfl
  obtain ⟨p, v', hcreate, hputs⟩ := createIn_puts hwell.formatted.numFatEntries hfree hroot filename
  refine ⟨_, v', ?_, .inr ⟨p, v.rootCluster, root, rfl, hcluster, hroot, hputs⟩⟩
  rw [createFile, hparent, Option.bind_some]
  exact hcreate

/-- An error of the search for the parent. -/
theorem createsInParent_error {err : Error} (herr : err ≠ .kSuccess)
    (hparent : v.parentDirectory path = some (.error err)) : v.CreatesInParent path := by
  refine ⟨⟨none, err⟩, v, ?_, .inl ⟨rfl, herr, rfl⟩⟩
  rw [createFile, hparent]
  rfl

/-- The parent is searched for. -/
theorem createsInParent_found (hmax : v.numFatEntries ≤ kMaxFatEntries) (hfree : v.freeClusters ≠ [])
    (hsplit : splitLast kSlash path = some (parentDirName, filename))
    (hparent : parentDirName ≠ []) (hname : filename ≠ []) :
    v.CreatesInParent path ↔ v.LeadsToDirectory parentDirName := by
  obtain ⟨hdirectory, hcluster⟩ := parentDirectory_eq (v := v) hsplit hparent hname
  constructor
  · rintro ⟨r, v', hcreate, hresult⟩
    rw [createFile, hdirectory] at hcreate
    obtain ⟨parent, hparent', hcreate⟩ := Option.bind_eq_some_iff.mp hcreate
    obtain ⟨⟨found, postSlash⟩, hfind, rfl⟩ := Option.map_eq_some_iff.mp hparent'
    refine ⟨_, hfind, fun q hq hattr => ?_⟩
    obtain rfl : found = some q := hq
    rw [parentResult, if_neg (not_not.mpr hattr)] at hcreate
    dsimp only at hcreate
    -- an entry was put, so that the cluster is not 0
    have hne : v.firstCluster q ≠ 0 := by
      intro hzero
      rw [hzero, createIn_zero] at hcreate
      cases hcreate
    obtain ⟨⟨p, u⟩, -, hvalue⟩ := Option.map_eq_some_iff.mp hcreate
    cases hvalue
    rcases hresult with ⟨hnone, -, -⟩ | ⟨p', c, l, -, hc, hl, -⟩
    · cases hnone
    · -- the chain starts at the first cluster of the parent itself
      rw [hcluster, hfind, Option.bind_some] at hc
      obtain rfl : v.directoryAt (v.firstCluster q) = c := Option.some.inj hc
      rw [directoryAt, if_neg hne] at hl
      exact ⟨l, hl⟩
  · rintro ⟨⟨found, postSlash⟩, hfind, hchain⟩
    rw [hfind, Option.map_some] at hdirectory
    cases found with
    | none => exact createsInParent_error (by decide) hdirectory
    | some q =>
      by_cases hattr : v.attr q = Attribute.kDirectory.code
      · obtain ⟨l, hl⟩ := hchain q rfl hattr
        obtain ⟨p, v', hcreate, hputs⟩ := createIn_puts hmax hfree hl filename
        rw [parentResult, if_neg (not_not.mpr hattr)] at hdirectory
        refine ⟨_, v', ?_, .inr ⟨p, v.firstCluster q, l, rfl, ?_, hl, hputs⟩⟩
        · rw [createFile, hdirectory, Option.bind_some]
          exact hcreate
        · rw [hcluster, hfind, Option.bind_some, Option.map_some, directoryAt, if_neg hl.ne_zero]
      · rw [parentResult, if_pos hattr] at hdirectory
        exact createsInParent_error (by decide) hdirectory

/-- `CreateFile` keeps to one slot exactly if the parent path leads to a directory. -/
theorem createsInParent_iff (hwell : v.WellFormed) (hfree : v.freeClusters ≠ []) :
    v.CreatesInParent path ↔ ∀ parentDirName filename,
      splitLast kSlash path = some (parentDirName, filename) → parentDirName ≠ [] → filename ≠ [] →
        v.LeadsToDirectory parentDirName := by
  cases hsplit : splitLast kSlash path with
  | none =>
    -- the path is a file name
    refine iff_of_true (createsInParent_root hwell hfree path ?_ ?_) ?_
    · rw [parentDirectory, hsplit]
    · rw [parentCluster, hsplit]
    · rintro parentDirName filename ⟨⟩
  | some parts =>
    obtain ⟨parentDirName, filename⟩ := parts
    by_cases hname : filename = []
    · -- a slash at the end
      refine iff_of_true (createsInParent_error (show Error.kIsDirectory ≠ .kSuccess by decide) ?_) ?_
      · rw [parentDirectory, hsplit]
        exact if_pos hname
      · rintro parentDirName' filename' ⟨⟩ - hne
        exact absurd hname hne
    by_cases hparent : parentDirName = []
    · -- the only slash is at the start
      subst hparent
      refine iff_of_true (createsInParent_root hwell hfree filename ?_ ?_) ?_
      · rw [parentDirectory, hsplit]
        dsimp only
        rw [if_neg hname, if_pos rfl]
      · rw [parentCluster, hsplit]
      · rintro parentDirName' filename' ⟨⟩ hne
        exact absurd rfl hne
    · rw [createsInParent_found hwell.formatted.numFatEntries hfree hsplit hparent hname]
      constructor
      · rintro h parentDirName' filename' ⟨⟩ - -
        exact h
      · exact fun h => h parentDirName filename rfl hparent hname

/-! ## The search for the parent -/

/-- A directory cluster is the start of a chain of directory clusters. -/
theorem Layout.chain_from (h : v.Layout dir) (hx : dir x) : ∃ l, v.ClusterChain x l := by
  obtain ⟨o, c, l, -, -, hl, hmem⟩ := h.owned x hx
  obtain ⟨-, l', -, hfrom⟩ := hl.from hmem
  exact ⟨l', hfrom⟩

/-- `FindFile` returns if what it copies fits its buffer, and only then. -/
theorem findFileFrom_isSome_iff (h : v.Layout dir) (hpath : ¬ NamesDeleted path)
    (hc : cluster = 0 ∨ dir cluster) (hfuel : path.length < fuel) :
    (v.findFileFrom fuel path cluster).isSome ↔
      ∀ elem ∈ v.pathElements fuel path cluster, elem.length ≤ 12 := by
  induction fuel generalizing path cluster with
  | zero => exact absurd hfuel (Nat.not_lt_zero _)
  | succ fuel ih =>
    rw [findFileFrom, pathElements]
    dsimp only
    -- the path behind a slash at its start
    have hrest : ¬ NamesDeleted (if path.head? = some kSlash then path.tail else path) ∧
        (if path.head? = some kSlash then path.tail else path).length ≤ path.length := by
      split
      · rename_i habs
        cases path with
        | nil => cases habs
        | cons c path =>
          obtain rfl : c = kSlash := Option.some.inj habs
          exact ⟨fun hd => hpath (hd.append []), Nat.le_succ _⟩
      · exact ⟨hpath, le_rfl⟩
    have hdir : dir (if path.head? = some kSlash ∨ cluster = 0 then v.rootCluster else cluster) := by
      split
      · exact h.root_dir
      · rename_i hne
        exact hc.resolve_left fun hz => hne (.inr hz)
    generalize (if path.head? = some kSlash then path.tail else path) = path' at hrest
    generalize (if path.head? = some kSlash ∨ cluster = 0 then v.rootCluster else cluster) = cluster'
      at hdir
    obtain ⟨hnames, hle⟩ := hrest
    obtain ⟨l, hl⟩ := h.chain_from hdir
    have hsearch := findInDirectory_eq h.formatted.numFatEntries hl (nextPathElement path').1
      (Nat.lt_succ_of_le hl.length_le)
    have helem : (nextPathElement path').1.head? ≠ some kDeleted := fun hhead =>
      hnames (NamesDeleted.of_prefix (.inl hhead) (nextPathElement_isPrefix path'))
    rw [List.forall_mem_cons]
    -- the element is copied before anything is looked up
    by_cases hlong : 12 < (nextPathElement path').1.length
    · rw [if_pos hlong]
      exact iff_of_false (by decide) fun hfit => absurd hfit.1 (Nat.not_le.mpr hlong)
    · rw [if_neg hlong, if_neg hlong, and_iff_right (Nat.not_lt.mp hlong), hsearch, Option.bind_some]
      cases hfind : (v.entriesOf l).find? (v.nameIsEqual · (nextPathElement path').1) with
      | none => exact iff_of_true rfl fun e he => absurd he List.not_mem_nil
      | some q =>
        dsimp only
        -- what is left of the path
        cases hnext : (nextPathElement path').2.1 with
        | none => exact iff_of_true rfl fun e he => absurd he List.not_mem_nil
        | some next =>
          cases next with
          | nil => exact iff_of_true rfl fun e he => absurd he List.not_mem_nil
          | cons b next =>
            dsimp only
            split
            · rename_i hattr
              have happend := nextPathElement_append hnext
              rw [hfind] at hsearch
              have hq := findInDirectory_named h.searches hdir helem hsearch
              -- the rest of the path is shorter, and looked up in a directory again
              refine ih (fun hd => hnames ?_) (hq.firstCluster_dir h hattr) ?_
              · rw [happend]
                exact hd.append _
              · have hlen := congrArg List.length happend
                rw [List.length_append, List.length_cons] at hlen
                omega
            · exact iff_of_true rfl fun e he => absurd he List.not_mem_nil

/-- On a well-formed volume, for a path that does not name deleted slots. -/
theorem leadsToDirectory_iff (h : v.Layout dir) (hpath : ¬ NamesDeleted parentDirName) :
    v.LeadsToDirectory parentDirName ↔ (∀ elem ∈ v.pathCopies parentDirName 0, elem.length ≤ 12) ∧
      ∀ q postSlash, v.findFile parentDirName 0 = some (some q, postSlash) →
        v.attr q = Attribute.kDirectory.code → v.firstCluster q ≠ 0 := by
  have hreturns := findFileFrom_isSome_iff h hpath (.inl rfl) (Nat.lt_succ_self parentDirName.length)
  unfold pathCopies
  rw [← hreturns]
  constructor
  · rintro ⟨r, hfind, hchain⟩
    refine ⟨Option.isSome_of_eq_some hfind, fun q postSlash hq hattr => ?_⟩
    cases hfind.symm.trans hq
    obtain ⟨l, hl⟩ := hchain q rfl hattr
    exact hl.ne_zero
  · -- on a well-formed volume the first cluster of a directory is 0 or has a chain
    rintro ⟨hsome, hzero⟩
    obtain ⟨⟨found, postSlash⟩, hfind⟩ := Option.isSome_iff_exists.mp hsome
    refine ⟨_, hfind, fun q hq hattr => ?_⟩
    obtain rfl : found = some q := hq
    have hnamed := findFile_named h hpath hfind
    exact h.chain_from ((hnamed.firstCluster_dir h hattr).resolve_left (hzero q postSlash hfind hattr))

/-- **`CreateFile` touches one slot of the right directory**, exactly if the parent path leads to a directory
that has a cluster; and what that means on a well-formed volume. -/
theorem createFile_frame_iff (hwell : v.WellFormed) (hfree : v.freeClusters ≠ []) (path : List UInt8) :
    (v.CreatesInParent path ↔ ∀ parentDirName filename,
      splitLast kSlash path = some (parentDirName, filename) → parentDirName ≠ [] → filename ≠ [] →
        v.LeadsToDirectory parentDirName) ∧
    ∀ parentDirName, ¬ NamesDeleted parentDirName →
      (v.LeadsToDirectory parentDirName ↔
        (∀ elem ∈ v.pathCopies parentDirName 0, elem.length ≤ 12) ∧
          ∀ q postSlash, v.findFile parentDirName 0 = some (some q, postSlash) →
            v.attr q = Attribute.kDirectory.code → v.firstCluster q ≠ 0) :=
  ⟨createsInParent_iff hwell hfree, fun _ hpath => leadsToDirectory_iff hwell.layout hpath⟩

end Volume

open Volume

/-- A volume with one directory "D" in the root directory, of one cluster. -/
def subdirectoryVolume : Volume where
  bytesPerCluster := 32
  numFatEntries := 6
  rootCluster := 2
  fat c := if c < 4 then kEndOfClusterchain else 0
  data c k :=
    if c = 2 then
      (bytesOf "D          " ++ Attribute.kDirectory.code :: List.replicate 14 0 ++ [3]).getD k 0
    else 0

theorem subdirectoryVolume_owns {o : Option EntryPtr} {c : Nat}
    (h : subdirectoryVolume.Owns (· ∈ [2, 3]) o c) : o = none ∧ c = 2 ∨ o = some ⟨2, 0⟩ ∧ c = 3 := by
  cases o with
  | none => exact .inl ⟨rfl, h⟩
  | some p =>
    obtain ⟨⟨hc, hi⟩, hlive, hfirst⟩ := h
    obtain ⟨cluster, index⟩ := p
    obtain rfl : index = 0 := Nat.lt_one_iff.mp hi
    rcases List.mem_pair.mp hc with hc | hc
    · obtain rfl : cluster = 2 := hc
      exact .inr ⟨rfl, hfirst.trans (by decide)⟩
    · obtain rfl : cluster = 3 := hc
      exact absurd rfl hlive.name_ne_zero

theorem subdirectoryVolume_layout : subdirectoryVolume.Layout (· ∈ [2, 3]) := by
  have hchain : ∀ c ∈ [2, 3], subdirectoryVolume.ClusterChain c [c] := by
    intro c hc
    rcases List.mem_pair.mp hc with rfl | rfl
    · exact ⟨.last (by decide), by decide⟩
    · exact ⟨.last (by decide), by decide⟩
  have hlist : ∀ {c l}, c ∈ [2, 3] → subdirectoryVolume.ClusterChain c l → l = [c] :=
    fun hc hl => hl.unique (hchain _ hc)
  have hlive : subdirectoryVolume.IsLive ⟨2, 0⟩ :=
    ⟨by decide, by decide, by decide, by decide, by unfold IsDot; decide⟩
  have howner : ∀ {o c}, subdirectoryVolume.Owns (· ∈ [2, 3]) o c → c ∈ [2, 3] := by
    intro o c h
    rcases subdirectoryVolume_owns h with ⟨-, rfl⟩ | ⟨-, rfl⟩ <;> decide
  refine ⟨⟨by decide, by decide, .inr (by decide)⟩, ⟨?_, ?_⟩, ?_, ?_⟩
  · intro o c h
    exact ⟨[c], (hchain c (howner h)).chain, (hchain c (howner h)).valid⟩
  · intro o o' c c' l l' h h' hne hl hl'
    have hc := hchain c (howner h)
    have hc' := hchain c' (howner h')
    rw [hl.unique hc.chain, hl'.unique hc'.chain]
    rcases subdirectoryVolume_owns h with ⟨rfl, rfl⟩ | ⟨rfl, rfl⟩ <;>
      rcases subdirectoryVolume_owns h' with ⟨rfl, rfl⟩ | ⟨rfl, rfl⟩
    · exact absurd rfl hne
    · exact List.singleton_disjoint.mpr (by decide)
    · exact List.singleton_disjoint.mpr (by decide)
    · exact absurd rfl hne
  · intro o c l x h _ hl hx
    rw [hlist (howner h) hl] at hx
    exact List.mem_singleton.mp hx ▸ howner h
  · intro x hx
    rcases List.mem_pair.mp hx with rfl | rfl
    · exact ⟨none, 2, [2], rfl, trivial, hchain 2 hx, List.mem_singleton_self 2⟩
    · exact ⟨some ⟨2, 0⟩, 3, [3], ⟨⟨by decide, by decide⟩, hlive, by decide⟩,
        show subdirectoryVolume.attr ⟨2, 0⟩ = _ by decide, hchain 3 hx, List.mem_singleton_self 3⟩

theorem subdirectoryVolume_wellFormed : subdirectoryVolume.WellFormed :=
  subdirectoryVolume_layout.wellFormed

theorem createFile_frame_iff_subdirectory : subdirectoryVolume.CreatesInParent (bytesOf "D/B") := by
  obtain ⟨hcreates, hleads⟩ := createFile_frame_iff subdirectoryVolume_wellFormed
    (show subdirectoryVolume.freeClusters ≠ [] by decide) (bytesOf "D/B")
  refine hcreates.mpr fun parentDirName filename hsplit _ _ => ?_
  obtain rfl : bytesOf "D" = parentDirName :=
    congrArg Prod.fst (Option.some.inj ((by decide : splitLast kSlash (bytesOf "D/B") =
      some (bytesOf "D", bytesOf "B")).symm.trans hsplit))
  refine (hleads _ (by decide)).mpr ⟨by decide, fun q postSlash hfind _ => ?_⟩
  cases (show subdirectoryVolume.findFile (bytesOf "D") 0 = some (some ⟨2, 0⟩, false) by decide).symm.trans
    hfind
  decide

/-- A volume with a directory "UP" that leads back to the root directory by the first cluster 0. -/
def upVolume : Volume where
  bytesPerCluster := 32
  numFatEntries := 6
  rootCluster := 2
  fat c := if c < 3 then kEndOfClusterchain else 0
  data c k :=
    if c = 2 then (bytesOf "UP         " ++ [Attribute.kDirectory.code]).getD k 0 else 0

theorem upVolume_wellFormed : upVolume.WellFormed := by
  have hdead : ∀ p, upVolume.Slot (· ∈ [2]) p → ¬ upVolume.IsLive p := by
    rintro ⟨c, i⟩ ⟨hc, hi⟩ hlive
    obtain rfl : c = 2 := List.mem_singleton.mp hc
    obtain rfl : i = 0 := Nat.lt_one_iff.mp hi
    exact hlive.firstCluster_ne_zero (by decide)
  apply wellFormed_of_files ⟨by decide, by decide, .inr (by decide)⟩
    ⟨.last (by decide), by decide⟩
  · exact fun p hp hlive => absurd hlive (hdead p hp)
  · exact fun p _ hp _ _ hlive _ => absurd hlive (hdead p hp)

/-- `FindFile` goes back to the root directory there, and `CreateFile` leaves the data area. -/
theorem createFile_in_cluster_zero : upVolume.WellFormed ∧ upVolume.freeClusters = [3, 4, 5] ∧
    upVolume.findFile (bytesOf "UP/UP") 0 = some (some ⟨2, 0⟩, false) ∧
    upVolume.createFile (bytesOf "UP/B") = none ∧ ¬ upVolume.CreatesInParent (bytesOf "UP/B") := by
  have hnone : upVolume.createFile (bytesOf "UP/B") = none := by decide
  refine ⟨upVolume_wellFormed, by decide, by decide, hnone, ?_⟩
  rintro ⟨r, v', hcreate, -⟩
  rw [hnone] at hcreate
  cases hcreate

end MikanSaos
