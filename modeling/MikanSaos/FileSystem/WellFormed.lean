import MikanSaos.FileSystem.ClusterChains
import MikanSaos.FileSystem.Directory
import MikanSaos.FileSystem.Entries

/-!
# WellFormed — every live entry has a cluster chain of its own

The directories of a volume are the root directory and what live directory entries lead to; each of
their slots may hold a live entry, which owns the chain from its first cluster.
-/

open Reasoning

namespace MikanSaos

namespace Volume

/-- The entries "." and ".." of a directory, which name it and its parent once more. -/
def IsDot (v : Volume) (p : EntryPtr) : Prop :=
  v.attr p = Attribute.kDirectory.code ∧
    ((List.range 11).map (v.entryByte p) = bytesOf ".          " ∨
      (List.range 11).map (v.entryByte p) = bytesOf "..         ")

/-- The entry of a file or a directory with a chain. -/
structure IsLive (v : Volume) (p : EntryPtr) : Prop where
  name_ne_zero : v.entryByte p 0 ≠ 0
  name_ne_deleted : v.entryByte p 0 ≠ kDeleted
  firstCluster_ne_zero : v.firstCluster p ≠ 0
  not_longName : v.attr p ≠ Attribute.kLongName.code
  not_dot : ¬ v.IsDot p

/-- The clusters of the directories: those of the root directory, and those of the directories that the
live entries in them name. -/
inductive DirCluster (v : Volume) : Nat → Prop
  | root {l : List Nat} {x : Nat} (hl : v.ClusterChain v.rootCluster l) (hx : x ∈ l) : DirCluster v x
  | sub {p : EntryPtr} {l : List Nat} {x : Nat} (hp : DirCluster v p.cluster)
      (hindex : p.index < v.entriesPerCluster) (hlive : v.IsLive p)
      (hattr : v.attr p = Attribute.kDirectory.code) (hl : v.ClusterChain (v.firstCluster p) l)
      (hx : x ∈ l) : DirCluster v x

/-- `p` is a slot of a directory cluster, for directory clusters `dir`. -/
def Slot (v : Volume) (dir : Nat → Prop) (p : EntryPtr) : Prop :=
  dir p.cluster ∧ p.index < v.entriesPerCluster

/-- The first clusters of the root directory (`none`) and of the live entries. -/
def Owns (v : Volume) (dir : Nat → Prop) : Option EntryPtr → Nat → Prop
  | none, c => c = v.rootCluster
  | some p, c => v.Slot dir p ∧ v.IsLive p ∧ c = v.firstCluster p

def OwnsDirectory (v : Volume) : Option EntryPtr → Prop
  | none => True
  | some p => v.attr p = Attribute.kDirectory.code

/-- What a FAT32 volume promises about its sizes; cell 0 of the FAT is no link. -/
structure Formatted (v : Volume) : Prop where
  bytesPerCluster : kEntryBytes ≤ v.bytesPerCluster
  numFatEntries : v.numFatEntries ≤ kMaxFatEntries
  reserved : v.fat 0 = 0 ∨ v.numFatEntries ≤ v.fat 0

structure WellFormed (v : Volume) : Prop where
  formatted : v.Formatted
  chain : ∀ o c, v.Owns v.DirCluster o c → ∃ l, v.ClusterChain c l
  disjoint : ∀ o o' c c' l l', v.Owns v.DirCluster o c → v.Owns v.DirCluster o' c' → o ≠ o' →
    v.ClusterChain c l → v.ClusterChain c' l' → l.Disjoint l'

/-! ## The layout of a volume with given directory clusters -/

def InUse (v : Volume) (x : Nat) : Prop := v.IsCluster x ∧ v.fat x ≠ 0

/-- The chains of the live entries in the directory clusters `dir`. -/
abbrev Family (v : Volume) (dir : Nat → Prop) : Prop :=
  ChainFamily v.fat (isEndOfClusterchain · = true) v.InUse (v.Owns dir)

/-- `dir` are the clusters of the directories, and the live entries have chains of their own. -/
structure Layout (v : Volume) (dir : Nat → Prop) : Prop where
  formatted : v.Formatted
  family : v.Family dir
  closed : ∀ o c l x, v.Owns dir o c → v.OwnsDirectory o → v.ClusterChain c l → x ∈ l → dir x
  owned : ∀ x, dir x → ∃ o c l, v.Owns dir o c ∧ v.OwnsDirectory o ∧ v.ClusterChain c l ∧ x ∈ l

variable {v v' : Volume} {dir dir' : Nat → Prop} {p q : EntryPtr} {o : Option EntryPtr} {c x : Nat}
  {l : List Nat}

theorem WellFormed.layout (h : v.WellFormed) : v.Layout v.DirCluster where
  formatted := h.formatted
  family := by
    constructor
    · intro o c hc
      obtain ⟨l, hl⟩ := h.chain o c hc
      exact ⟨l, hl.chain, hl.valid⟩
    · intro o o' c c' l l' hc hc' hne hl hl'
      obtain ⟨m, hm⟩ := h.chain o c hc
      obtain ⟨m', hm'⟩ := h.chain o' c' hc'
      rw [hl.unique hm.chain, hl'.unique hm'.chain]
      exact h.disjoint o o' c c' m m' hc hc' hne hm hm'
  closed := by
    intro o c l x hc hdir hl hx
    cases o with
    | none => exact .root (hc ▸ hl) hx
    | some p =>
      obtain ⟨⟨hp, hindex⟩, hlive, rfl⟩ := hc
      exact .sub hp hindex hlive hdir hl hx
  owned := by
    intro x hx
    cases hx with
    | root hl hx => exact ⟨none, _, _, rfl, trivial, hl, hx⟩
    | sub hp hindex hlive hattr hl hx =>
      exact ⟨some _, _, _, ⟨⟨hp, hindex⟩, hlive, rfl⟩, hattr, hl, hx⟩

/-- The clusters reached through directories are among those of the layout. -/
theorem Layout.dir_of_dirCluster (h : v.Layout dir) (hx : v.DirCluster x) : dir x := by
  induction hx with
  | root hl hx => exact h.closed none _ _ _ rfl trivial hl hx
  | sub _ hindex hlive hattr hl hx ih =>
    exact h.closed (some _) _ _ _ ⟨⟨ih, hindex⟩, hlive, rfl⟩ hattr hl hx

theorem Layout.owns_of_dirCluster (h : v.Layout dir) (hc : v.Owns v.DirCluster o c) :
    v.Owns dir o c := by
  cases o with
  | none => exact hc
  | some p => exact ⟨⟨h.dir_of_dirCluster hc.1.1, hc.1.2⟩, hc.2⟩

theorem Layout.exists_chain (h : v.Layout dir) (hc : v.Owns dir o c) :
    ∃ l, v.ClusterChain c l := by
  obtain ⟨l, hl, hused⟩ := h.family.chain o c hc
  exact ⟨l, hl, hused⟩

theorem Layout.wellFormed (h : v.Layout dir) : v.WellFormed where
  formatted := h.formatted
  chain := fun _ _ hc => h.exists_chain (h.owns_of_dirCluster hc)
  disjoint := fun o o' c c' l l' hc hc' hne hl hl' =>
    h.family.disjoint o o' c c' l l' (h.owns_of_dirCluster hc) (h.owns_of_dirCluster hc') hne
      hl.chain hl'.chain

/-- An owner has one first cluster. -/
theorem Owns.unique {d : Nat} (hc : v.Owns dir o c) (hd : v.Owns dir o d) : c = d := by
  cases o with
  | none => exact Eq.trans hc (Eq.symm hd)
  | some p => exact hc.2.2.trans hd.2.2.symm

/-- A volume without subdirectories. -/
theorem wellFormed_of_files {root : List Nat} (hformatted : v.Formatted)
    (hroot : v.ClusterChain v.rootCluster root)
    (hfile : ∀ p, v.Slot (· ∈ root) p → v.IsLive p → v.attr p ≠ Attribute.kDirectory.code ∧
      ∃ l, v.ClusterChain (v.firstCluster p) l ∧ l.Disjoint root)
    (hfiles : ∀ p q, v.Slot (· ∈ root) p → v.Slot (· ∈ root) q → p ≠ q → v.IsLive p → v.IsLive q →
      ∀ l m, v.ClusterChain (v.firstCluster p) l → v.ClusterChain (v.firstCluster q) m → l.Disjoint m) :
    v.WellFormed := by
  have hdir : ∀ x, v.DirCluster x → x ∈ root := by
    intro x hx
    induction hx with
    | root hl hx => exact hl.unique hroot ▸ hx
    | sub _ hindex hlive hattr _ _ ih => exact absurd hattr (hfile _ ⟨ih, hindex⟩ hlive).1
  have hslot : ∀ p, v.Slot v.DirCluster p → v.Slot (· ∈ root) p := fun p hp => ⟨hdir _ hp.1, hp.2⟩
  have hapart : ∀ p l, v.Slot v.DirCluster p → v.IsLive p → v.ClusterChain (v.firstCluster p) l →
      l.Disjoint root := by
    intro p l hp hlive hl
    obtain ⟨-, m, hm, hdisj⟩ := hfile p (hslot p hp) hlive
    exact hl.unique hm ▸ hdisj
  refine ⟨hformatted, ?_, ?_⟩
  · intro o c hc
    cases o with
    | none =>
      obtain rfl : c = v.rootCluster := hc
      exact ⟨root, hroot⟩
    | some p =>
      obtain ⟨hp, hlive, rfl⟩ := hc
      obtain ⟨-, l, hl, -⟩ := hfile p (hslot p hp) hlive
      exact ⟨l, hl⟩
  · intro o o' c c' l l' hc hc' hne hl hl'
    cases o with
    | none =>
      cases o' with
      | none => exact absurd rfl hne
      | some q =>
        obtain rfl : c = v.rootCluster := hc
        obtain ⟨hq, hlive, rfl⟩ := hc'
        rw [hl.unique hroot]
        exact List.disjoint_symm (hapart q l' hq hlive hl')
    | some p =>
      obtain ⟨hp, hlive, rfl⟩ := hc
      cases o' with
      | none =>
        obtain rfl : c' = v.rootCluster := hc'
        rw [hl'.unique hroot]
        exact hapart p l hp hlive hl
      | some q =>
        obtain ⟨hq, hlive', rfl⟩ := hc'
        exact hfiles p q (hslot p hp) (hslot q hq) (fun he => hne (he ▸ rfl)) hlive hlive' l l' hl hl'

/-! ## Directory clusters are in use -/

theorem Layout.inUse (h : v.Layout dir) (hx : dir x) : v.InUse x := by
  obtain ⟨o, c, l, -, -, hl, hmem⟩ := h.owned x hx
  exact hl.valid x hmem

theorem Layout.not_free (h : v.Layout dir) (hx : dir x) : x ∉ v.freeClusters :=
  fun hfree => (h.inUse hx).2 (mem_freeClusters.mp hfree).2

/-- Walking on in a directory stays in it, or ends. -/
theorem Layout.next_dir (h : v.Layout dir) (hx : dir x) {y : Nat} (hy : v.nextCluster x = some y) :
    y = kEndOfClusterchain ∨ dir y := by
  obtain ⟨o, c, l, hc, hdir, hl, hmem⟩ := h.owned x hx
  obtain ⟨i, hi⟩ := List.mem_iff_getElem?.mp hmem
  obtain ⟨hnext, -⟩ := nextCluster_eq h.formatted.numFatEntries hl hi
  rw [hnext] at hy
  cases hlast : l[i + 1]? with
  | none =>
    rw [hlast] at hy
    exact .inl (Option.some.inj hy).symm
  | some z =>
    rw [hlast] at hy
    apply Or.inr
    rw [← Option.some.inj hy]
    exact h.closed o c l z hc hdir hl (List.mem_of_getElem? hlast)

/-- A file's clusters are not directory clusters. -/
theorem Layout.not_dir_of_file (h : v.Layout dir) (hc : v.Owns dir (some p) c)
    (hfile : v.attr p ≠ Attribute.kDirectory.code) (hl : v.ClusterChain c l) (hx : x ∈ l) :
    ¬ dir x := by
  intro hdx
  obtain ⟨o, c', l', hc', hdir, hl', hx'⟩ := h.owned x hdx
  have hne : some p ≠ o := by
    rintro rfl
    exact hfile hdir
  exact h.family.disjoint _ _ _ _ _ _ hc hc' hne hl.chain hl'.chain hx hx'

/-! ## One owner's chain is replaced -/

/-- The rule for all operations: the owner `o` has the chain `new` in place of `old`, and the other
owners stay as they were. -/
theorem Layout.replace (h : v.Layout dir) {old new : List Nat}
    (hr : ChainFamily.Replaces v.fat v'.fat (isEndOfClusterchain · = true) v.InUse v'.InUse
      (v.Owns dir) o old new)
    (hformatted : v'.Formatted)
    (hold : ∀ c, v.Owns dir o c → v.ClusterChain c old)
    (hnew : ∀ c, v'.Owns dir' o c → v'.ClusterChain c new)
    (hothers : ∀ j ≠ o, ∀ d, v'.Owns dir' j d ↔ v.Owns dir j d)
    (hdirs : ∀ j ≠ o, ∀ d, v.Owns dir j d → (v'.OwnsDirectory j ↔ v.OwnsDirectory j))
    (hdir : ∀ x, dir' x ↔ dir x ∧ x ∉ old ∨ x ∈ new ∧ v'.OwnsDirectory o ∧ ∃ c, v'.Owns dir' o c) :
    v'.Layout dir' where
  formatted := hformatted
  family := h.family.replace hr (fun j hj d hd => (hothers j hj d).mp hd) fun c hc =>
    ⟨(hnew c hc).chain, (hnew c hc).valid⟩
  closed := by
    intro j d m x hd hjdir hm hx
    rw [hdir]
    by_cases hj : j = o
    · subst hj
      rw [hm.chain.unique (hnew d hd).chain] at hx
      exact .inr ⟨hx, hjdir, d, hd⟩
    · have hd' := (hothers j hj d).mp hd
      obtain ⟨m', hm'⟩ := h.exists_chain hd'
      obtain rfl := hm.chain.unique (h.family.keeps hr hj hd' hm'.chain).1
      exact .inl ⟨h.closed j d m x hd' ((hdirs j hj d hd').mp hjdir) hm' hx,
        (h.family.not_mem hr hj hd' hm'.chain hx).1⟩
  owned := by
    intro x hx
    rcases (hdir x).mp hx with ⟨hx, hxo⟩ | ⟨hx, hodir, c, hc⟩
    · obtain ⟨j, d, m, hd, hjdir, hm, hxm⟩ := h.owned x hx
      have hj : j ≠ o := by
        rintro rfl
        rw [hm.chain.unique (hold d hd).chain] at hxm
        exact hxo hxm
      obtain ⟨hm', hused⟩ := h.family.keeps hr hj hd hm.chain
      exact ⟨j, d, m, (hothers j hj d).mpr hd, (hdirs j hj d hd).mpr hjdir, ⟨hm', hused⟩, hxm⟩
    · exact ⟨o, c, new, hc, hodir, hnew c hc, hx⟩

/-- An entry with the same bytes is the same entry. -/
theorem isLive_congr (h : SameEntry v v' q fun _ => False) : v'.IsLive q ↔ v.IsLive q := by
  have hbyte : ∀ k < kEntryBytes, v'.entryByte q k = v.entryByte q k := fun k hk => h k hk id
  have hattr : v'.attr q = v.attr q := attr_congr h id
  have hfirst : v'.firstCluster q = v.firstCluster q := firstCluster_congr h fun _ _ _ => id
  have hname : (List.range 11).map (v'.entryByte q) = (List.range 11).map (v.entryByte q) := by
    apply List.map_congr_left
    intro k hk
    apply hbyte
    have := List.mem_range.mp hk
    unfold kEntryBytes
    omega
  have hdot : v'.IsDot q ↔ v.IsDot q := by
    unfold IsDot
    rw [hattr, hname]
  have hzero := hbyte 0 (by decide)
  constructor
  · intro hl
    exact ⟨hzero ▸ hl.1, hzero ▸ hl.2, hfirst ▸ hl.3, hattr ▸ hl.4, fun hd => hl.5 (hdot.mpr hd)⟩
  · intro hl
    exact ⟨hzero.symm ▸ hl.1, hzero.symm ▸ hl.2, hfirst.symm ▸ hl.3, hattr.symm ▸ hl.4,
      fun hd => hl.5 (hdot.mp hd)⟩

theorem inUse_congr (hnum : v'.numFatEntries = v.numFatEntries) (hfat : v'.fat x = v.fat x) :
    v'.InUse x ↔ v.InUse x := by
  unfold InUse IsCluster
  rw [hnum, hfat]

theorem slot_congr (hbytes : v'.bytesPerCluster = v.bytesPerCluster) :
    v'.Slot dir q ↔ v.Slot dir q := by
  unfold Slot entriesPerCluster
  rw [hbytes]

/-- A slot with the same bytes has the same owner. -/
theorem owns_congr (hbytes : v'.bytesPerCluster = v.bytesPerCluster)
    (hsame : v.Slot dir q → SameEntry v v' q fun _ => False) :
    v'.Owns dir (some q) c ↔ v.Owns dir (some q) c := by
  have hslot : v'.Slot dir q ↔ v.Slot dir q := slot_congr hbytes
  constructor
  · rintro ⟨hs, hl, rfl⟩
    have hentry := hsame (hslot.mp hs)
    exact ⟨hslot.mp hs, (isLive_congr hentry).mp hl, firstCluster_congr hentry fun _ _ _ => id⟩
  · rintro ⟨hs, hl, rfl⟩
    have hentry := hsame hs
    exact ⟨hslot.mpr hs, (isLive_congr hentry).mpr hl,
      (firstCluster_congr hentry fun _ _ _ => id).symm⟩

/-- The slots of one more cluster have no owners while they are unused. -/
theorem owns_or_eq (hunused : ∀ i < v.entriesPerCluster, ¬ v.IsLive ⟨x, i⟩) :
    v.Owns (fun y => dir y ∨ y = x) o c ↔ v.Owns dir o c := by
  cases o with
  | none => exact Iff.rfl
  | some q =>
    constructor
    · rintro ⟨⟨hq | hq, hi⟩, hlive, hc⟩
      · exact ⟨⟨hq, hi⟩, hlive, hc⟩
      · subst hq
        exact absurd hlive (hunused q.index hi)
    · rintro ⟨⟨hq, hi⟩, hlive, hc⟩
      exact ⟨⟨.inl hq, hi⟩, hlive, hc⟩

/-- The slot `p` of a file has the chain `new` in place of `old` (both may be empty). -/
structure FileChange (v v' : Volume) (dir : Nat → Prop) (p : EntryPtr) (old new : List Nat) :
    Prop where
  formatted : v'.Formatted
  bytesPerCluster : v'.bytesPerCluster = v.bytesPerCluster
  numFatEntries : v'.numFatEntries = v.numFatEntries
  rootCluster : v'.rootCluster = v.rootCluster
  entries : ∀ q ≠ p, v.Slot dir q → SameEntry v v' q fun _ => False
  fat : ∀ x, v.InUse x → x ∉ old → x ∉ new → v'.fat x = v.fat x
  fresh : ∀ x ∈ new, x ∈ old ∨ ¬ v.InUse x
  file : v.IsLive p → v.attr p ≠ Attribute.kDirectory.code
  file' : v'.IsLive p → v'.attr p ≠ Attribute.kDirectory.code
  owned : old = [] ∨ v.Slot dir p ∧ v.IsLive p
  old_chain : v.IsLive p → v.ClusterChain (v.firstCluster p) old
  new_chain : v'.IsLive p → v'.ClusterChain (v'.firstCluster p) new

variable {old new : List Nat}

theorem FileChange.replaces (h : FileChange v v' dir p old new) :
    ChainFamily.Replaces v.fat v'.fat (isEndOfClusterchain · = true) v.InUse v'.InUse
      (v.Owns dir) (some p) old new where
  owned := h.owned.imp id fun ⟨hslot, hlive⟩ =>
    ⟨_, ⟨hslot, hlive, rfl⟩, (h.old_chain hlive).chain⟩
  fresh := h.fresh
  next_eq := h.fat
  used_of := by
    intro x hx hxo hxn
    exact (inUse_congr h.numFatEntries (h.fat x hx hxo hxn)).mpr hx

/-- The other owners are the same, with the same bytes. -/
theorem FileChange.owns_iff (h : FileChange v v' dir p old new) (ho : o ≠ some p) :
    v'.Owns dir o c ↔ v.Owns dir o c := by
  cases o with
  | none =>
    unfold Owns
    rw [h.rootCluster]
  | some q => exact owns_congr h.bytesPerCluster (h.entries q fun hq => ho (hq ▸ rfl))

/-- A change of one file's chain keeps the layout, with the same directory clusters. -/
theorem FileChange.layout (hc : FileChange v v' dir p old new) (h : v.Layout dir) :
    v'.Layout dir := by
  apply h.replace hc.replaces hc.formatted
  · rintro c ⟨-, hlive, rfl⟩
    exact hc.old_chain hlive
  · rintro c ⟨-, hlive, rfl⟩
    exact hc.new_chain hlive
  · exact fun j hj d => hc.owns_iff hj
  · intro j hj d hd
    cases j with
    | none => exact Iff.rfl
    | some q =>
      show v'.attr q = Attribute.kDirectory.code ↔ v.attr q = Attribute.kDirectory.code
      rw [attr_congr (hc.entries q (fun hq => hj (hq ▸ rfl)) hd.1) id]
  · intro x
    constructor
    · intro hx
      refine .inl ⟨hx, fun hxo => ?_⟩
      rcases hc.owned with rfl | ⟨hslot, hlive⟩
      · cases hxo
      · exact h.not_dir_of_file ⟨hslot, hlive, rfl⟩ (hc.file hlive) (hc.old_chain hlive) hxo hx
    · rintro (⟨hx, -⟩ | ⟨-, hdir, c, -, hlive, -⟩)
      · exact hx
      · exact absurd hdir (hc.file' hlive)

/-! ## A directory gets one more cluster -/

theorem entryByte_clearCluster (v : Volume) {i k : Nat} (hi : i < v.entriesPerCluster)
    (hk : k < kEntryBytes) : (v.clearCluster x).entryByte ⟨x, i⟩ k = 0 := by
  unfold entryByte clearCluster
  rw [setCluster_self]
  apply if_pos
  have hmul := Nat.mul_le_mul_left kEntryBytes (Nat.succ_le_of_lt hi)
  have hdiv := Nat.mul_div_le v.bytesPerCluster kEntryBytes
  unfold EntryPtr.offset entriesPerCluster at *
  dsimp only
  rw [Nat.mul_succ] at hmul
  omega

/-- A free cluster, cleared and linked behind a directory, holds no live entries yet. -/
theorem Layout.extendDirectory (h : v.Layout dir) (hc : v.Owns dir o c) (ho : v.OwnsDirectory o)
    (hl : v.ClusterChain c l) {e : Nat} (he : l.getLast? = some e) (hx : x ∈ v.freeClusters) :
    ((v.relink e [x]).clearCluster x).Layout fun y => dir y ∨ y = x := by
  have hmax := h.formatted.numFatEntries
  have happ := hl.appended hmax he (List.nodup_singleton x)
    (List.cons_subset.mpr ⟨hx, List.nil_subset _⟩)
  have hsame := happ.sameData
  have hnotUsed : ¬ v.InUse x := fun hu => hu.2 (mem_freeClusters.mp hx).2
  have hnotDir : ¬ dir x := fun hd => hnotUsed (h.inUse hd)
  generalize hv' : (v.relink e [x]).clearCluster x = v'
  have hbytes : v'.bytesPerCluster = v.bytesPerCluster := by rw [← hv']; exact hsame.bytesPerCluster
  have hnum : v'.numFatEntries = v.numFatEntries := by rw [← hv']; exact hsame.numFatEntries
  have hroot : v'.rootCluster = v.rootCluster := by rw [← hv']; exact hsame.rootCluster
  have hfat : v'.fat = (v.relink e [x]).fat := by rw [← hv']; rfl
  have hchain' : v'.ClusterChain c (l ++ [x]) := happ.chain.congr (by rw [hnum, hsame.numFatEntries])
    fun y _ => congrFun hfat y
  have hentry : ∀ q : EntryPtr, q.cluster ≠ x → SameEntry v v' q fun _ => False := by
    intro q hq
    apply SameEntry.of_data
    rw [← hv']
    exact (setCluster_of_ne _ _ hq).trans (congrFun hsame.data _)
  have hunused : ∀ i < v'.entriesPerCluster, ¬ v'.IsLive ⟨x, i⟩ := by
    intro i hi hlive
    apply hlive.name_ne_zero
    rw [← hv'] at hi ⊢
    exact entryByte_clearCluster _ hi (by decide)
  have howns : ∀ j d, v'.Owns (fun y => dir y ∨ y = x) j d ↔ v.Owns dir j d := by
    intro j d
    rw [owns_or_eq hunused]
    cases j with
    | none =>
      unfold Owns
      rw [hroot]
    | some q => exact owns_congr hbytes fun hq => hentry q fun he => hnotDir (he ▸ hq.1)
  have hdirs : ∀ j d, v.Owns dir j d → (v'.OwnsDirectory j ↔ v.OwnsDirectory j) := by
    intro j d hd
    cases j with
    | none => exact Iff.rfl
    | some q =>
      show v'.attr q = Attribute.kDirectory.code ↔ v.attr q = Attribute.kDirectory.code
      rw [attr_congr (hentry q fun he => hnotDir (he ▸ hd.1.1)) id]
  have hkeep : ∀ y, v.InUse y → y ∉ l → y ∉ l ++ [x] → v'.fat y = v.fat y := by
    intro y _ hy hyx
    rw [hfat]
    exact happ.fat y (fun hlast => hy (List.mem_of_getLast? hlast)) fun hin =>
      hyx (List.mem_append_right l hin)
  have hr : ChainFamily.Replaces v.fat v'.fat (isEndOfClusterchain · = true) v.InUse v'.InUse
      (v.Owns dir) o l (l ++ [x]) := by
    refine ⟨.inr ⟨c, hc, hl.chain⟩, ?_, hkeep, ?_⟩
    · intro y hy
      rcases List.mem_append.mp hy with hy | hy
      · exact .inl hy
      · exact .inr (List.mem_singleton.mp hy ▸ hnotUsed)
    · intro y hu hyo hyn
      exact (inUse_congr hnum (hkeep y hu hyo hyn)).mpr hu
  have hreserved : v'.fat 0 = v.fat 0 := (congrFun hfat 0).trans (happ.fat_zero hl)
  apply h.replace hr ⟨hbytes ▸ h.formatted.1, hnum ▸ h.formatted.2, by
    rw [hreserved, hnum]
    exact h.formatted.3⟩
  · intro d hd
    rw [hc.unique hd] at hl
    exact hl
  · intro d hd
    rw [hc.unique ((howns o d).mp hd)] at hchain'
    exact hchain'
  · exact fun j _ d => howns j d
  · exact fun j _ d => hdirs j d
  · intro y
    constructor
    · rintro (hy | rfl)
      · by_cases hyl : y ∈ l
        · exact .inr ⟨List.mem_append_left _ hyl, (hdirs o c hc).mpr ho, c, (howns o c).mpr hc⟩
        · exact .inl ⟨hy, hyl⟩
      · exact .inr ⟨List.mem_append_right l (List.mem_singleton_self y), (hdirs o c hc).mpr ho, c,
          (howns o c).mpr hc⟩
    · rintro (⟨hy, -⟩ | ⟨hy, -⟩)
      · exact .inl hy
      · rcases List.mem_append.mp hy with hy | hy
        · exact .inl (h.closed o c l y hc ho hl hy)
        · exact .inr (List.mem_singleton.mp hy)

end Volume

end MikanSaos
