import MikanSaos.FileSystem.FileRuns
import MikanSaos.FileSystem.PathBuffers

/-!
# CreateEntry — the slot that `CreateFile` takes, and what it leaves there

`AllocateEntry` takes the first slot of the directory that is unused or deleted, and a new cluster if there
is none.  `CreateFile` writes the name and the size of the entry; the other bytes stay as they were.
-/

open Reasoning

namespace MikanSaos

namespace Volume

variable {v v' : Volume} {c e x : Nat} {l : List Nat} {p q : EntryPtr} {path filename : List UInt8}

/-- The slot was never used, or its entry is deleted. -/
def isUnused (v : Volume) (p : EntryPtr) : Bool := v.entryByte p 0 == 0 || v.entryByte p 0 == kDeleted

theorem isUnused_iff : v.isUnused p ↔ v.entryByte p 0 = 0 ∨ v.entryByte p 0 = kDeleted := by
  unfold isUnused
  rw [Bool.or_eq_true, beq_iff_eq, beq_iff_eq]

/-! ## `AllocateEntry` -/

/-- In a directory with the clusters `l`, the first unused slot, or the first slot of a new cluster. -/
theorem allocateEntry_eq (hmax : v.numFatEntries ≤ kMaxFatEntries) (h : v.ClusterChain c l)
    (he : l.getLast? = some e) {fuel : Nat} (hfuel : l.length ≤ fuel) :
    v.allocateEntry fuel c = match (v.slotsOf l).find? v.isUnused with
      | some p => some (p, v)
      | none => v.freeClusters.head?.map fun x => (⟨x, 0⟩, (v.relink e [x]).clearCluster x) := by
  -- the slots of the first cluster come first
  have hslots : ∀ x l, (v.slotsOf (x :: l)).find? v.isUnused =
      ((v.unusedIn x).map (⟨x, ·⟩)).or ((v.slotsOf l).find? v.isUnused) := by
    intro x l
    unfold slotsOf unusedIn
    rw [List.flatMap_cons, List.find?_append, List.find?_map]
    rfl
  induction h using ClusterChain.walk hmax generalizing fuel with
  | last x hx hcluster _ hnext =>
    obtain ⟨fuel, rfl⟩ : ∃ k, fuel = k + 1 := ⟨fuel - 1, by simp at hfuel; omega⟩
    rw [allocateEntry, if_pos hcluster, hslots]
    cases v.unusedIn x with
    | some i => rfl
    | none =>
      -- the last cluster
      obtain rfl : x = e := Option.some.inj he
      dsimp only
      rw [hnext, Option.bind_some, if_pos rfl, extendCluster_eq hmax hx he]
      cases hfree : v.freeClusters with
      | nil => rfl
      | cons z rest => rfl
  | link x y l _ hy hcluster _ hnext hmore ih =>
    obtain ⟨fuel, rfl⟩ : ∃ k, fuel = k + 1 := ⟨fuel - 1, by simp at hfuel; omega⟩
    rw [allocateEntry, if_pos hcluster, hslots]
    cases v.unusedIn x with
    | some i => rfl
    | none =>
      dsimp only
      rw [hnext, Option.bind_some, if_neg hmore, Option.map_none, Option.none_or]
      -- behind it the last cluster is the same
      obtain ⟨z, l, rfl⟩ := List.exists_cons_of_ne_nil hy.chain.ne_nil
      exact ih (by rwa [List.getLast?_cons_cons] at he) (by simpa using hfuel)

theorem linkFree_bytesPerCluster {fuel candidate current n : Nat} {r : Nat × Volume}
    (h : linkFree fuel v candidate current n = some r) : r.2.bytesPerCluster = v.bytesPerCluster := by
  induction fuel generalizing v candidate current n with
  | zero =>
    cases n with
    | zero => exact Option.some.inj h ▸ rfl
    | succ n => cases h
  | succ fuel ih =>
    cases n with
    | zero => exact Option.some.inj h ▸ rfl
    | succ n =>
      rw [linkFree] at h
      split at h
      · exact ih h
      · exact ih (v := v.setFAT current candidate) h

/-- On any volume: the slot is one that `freeSlot` finds, or the first of a cluster that has been
cleared. -/
theorem allocateEntry_fresh {fuel : Nat} (h : v.allocateEntry fuel c = some (p, v')) :
    v' = v ∧ v.freeSlot fuel c = some p ∨
      v.freeSlot fuel c = none ∧ ∃ (u : Volume) (x : Nat), u.bytesPerCluster = v.bytesPerCluster ∧ p = ⟨x, 0⟩ ∧
        v' = u.clearCluster x := by
  induction fuel generalizing c with
  | zero => cases h
  | succ fuel ih =>
    rw [allocateEntry] at h
    rw [freeSlot]
    split at h
    · cases hunused : v.unusedIn c with
      | some i =>
        rw [hunused] at h
        cases h
        exact .inl ⟨rfl, rfl⟩
      | none =>
        rw [hunused] at h
        obtain ⟨next, hnext, h⟩ := Option.bind_eq_some_iff.mp h
        dsimp only
        rw [hnext, Option.bind_some]
        split at h
        · -- the end of the directory
          rename_i hend
          obtain ⟨⟨y, u⟩, hext, h⟩ := Option.map_eq_some_iff.mp h
          cases h
          obtain ⟨last, -, hext⟩ := Option.bind_eq_some_iff.mp hext
          obtain ⟨r, hlink, hext⟩ := Option.map_eq_some_iff.mp hext
          cases hext
          exact .inr ⟨if_pos hend, r.2.setFAT r.1 kEndOfClusterchain, r.1, linkFree_bytesPerCluster hlink,
            rfl, rfl⟩
        · rename_i hmore
          rw [if_neg hmore]
          exact ih h
    · cases h

/-! ## What `CreateFile` writes into the entry -/

/-- The name and the size are written. -/
theorem sameEntry_create (v : Volume) (p : EntryPtr) (filename : List UInt8) (q : EntryPtr) :
    SameEntry v ((v.setFileName p filename).setFileSize p 0) q
      fun k => q = p ∧ (k < 11 ∨ 28 ≤ k) :=
  ((sameEntry_copyIn v p (by decide) (fileName83 filename) q).trans
    (sameEntry_setFileSize _ p 0 q)).mono fun _ hk =>
      hk.elim (fun hk => ⟨hk.1, .inl hk.2⟩) fun hk => ⟨hk.1, .inr hk.2⟩

theorem createFile_success (h : v.createFile path = some (⟨some p, .kSuccess⟩, v')) :
    ∃ c filename u, v.parentDirectory path = some (.ok (c, filename)) ∧
      v.allocateEntry (v.numFatEntries + 1) c = some (p, u) ∧
      v' = (u.setFileName p filename).setFileSize p 0 := by
  unfold createFile at h
  obtain ⟨parent, hparent, h⟩ := Option.bind_eq_some_iff.mp h
  cases parent with
  | error err => cases h
  | ok parent =>
    obtain ⟨⟨q, u⟩, hentry, h⟩ := Option.map_eq_some_iff.mp h
    cases h
    exact ⟨parent.1, parent.2, u, hparent, hentry, rfl⟩

/-- The attribute is none of those that `ls`, `FindFile` and `DeleteFile` treat in their own way. -/
def HasFileAttr (v : Volume) (p : EntryPtr) : Prop :=
  v.attr p ≠ Attribute.kDirectory.code ∧ v.attr p ≠ Attribute.kLongName.code ∧
    v.attr p ≠ Attribute.kVolumeID.code ∧ v.attr p ≠ Attribute.kSystem.code

instance (v : Volume) (p : EntryPtr) : Decidable (v.HasFileAttr p) :=
  inferInstanceAs (Decidable (_ ∧ _))

/-- An empty file: no clusters, no bytes, and the attribute of a file. -/
structure IsFresh (v : Volume) (p : EntryPtr) : Prop where
  firstCluster : v.firstCluster p = 0
  fileSize : v.fileSize p = 0
  attr : v.HasFileAttr p

end Volume

open Volume

/-- A volume with one deleted directory in the root directory. -/
def deletedDirectoryVolume : Volume where
  bytesPerCluster := 32
  numFatEntries := 6
  rootCluster := 2
  fat c := if c < 3 then kEndOfClusterchain else 0
  data c k :=
    if c = 2 then
      (kDeleted :: bytesOf "LD        " ++ Attribute.kDirectory.code :: List.replicate 14 0 ++
        [5]).getD k 0
    else 0

theorem deletedDirectoryVolume_wellFormed : deletedDirectoryVolume.WellFormed := by
  have hdead : ∀ p, deletedDirectoryVolume.Slot (· ∈ [2]) p → ¬ deletedDirectoryVolume.IsLive p := by
    rintro ⟨c, i⟩ ⟨hc, hi⟩ hlive
    obtain rfl : c = 2 := List.mem_singleton.mp hc
    obtain rfl : i = 0 := Nat.lt_one_iff.mp hi
    exact hlive.name_ne_deleted (by decide)
  apply wellFormed_of_files ⟨by decide, by decide, .inr (by decide)⟩ 
    ⟨.last (by decide), by decide⟩
  · exact fun p hp hlive => absurd hlive (hdead p hp)
  · exact fun p _ hp _ _ hlive _ => absurd hlive (hdead p hp)

end MikanSaos
