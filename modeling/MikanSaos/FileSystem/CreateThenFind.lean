import MikanSaos.FileSystem.CreateFrame
import MikanSaos.FileSystem.PathWalk

/-!
# CreateThenFind — a file that has been created is found by its path

The name that `SetFileName` stores is the one that `NameIsEqual` looks for only if the two split it alike.
The directory that `CreateFile` takes is the one that `FindFile` looks in, unless a second slash in front of the
file name sends it back to the root directory.
-/

open Reasoning

namespace MikanSaos

/-- The part of a path behind its last slash. -/
def nameOf (path : List UInt8) : List UInt8 :=
  match splitLast kSlash path with
  | none => path
  | some (_, filename) => filename

/-- A second slash stands in front of the file name, behind an element of the path. -/
def NameBehindRun (path : List UInt8) : Prop :=
  match splitLast kSlash path with
  | none => False
  | some (parentDirName, _) => (afterSlash parentDirName).getLast? = some kSlash

instance (path : List UInt8) : Decidable (NameBehindRun path) := by
  unfold NameBehindRun
  split <;> infer_instance

namespace Volume

variable {v v' u : Volume} {dir : Nat → Prop} {o o' : Option EntryPtr} {c d x fuel : Nat} {l m : List Nat}
  {p q r : EntryPtr} {path filename parentDirName elem : List UInt8} {b : Bool}

/-! ## The stored name -/

theorem entryByte_setFileName (v : Volume) (p : EntryPtr) (filename : List UInt8) {k : Nat} (hk : k < 11) :
    (v.setFileName p filename).entryByte p k = fileName83 filename k := by
  unfold entryByte setFileName copyIn
  rw [setCluster_self, if_pos (by omega), Nat.add_sub_cancel_left]

/-- A name finds the entry that it was stored in, exactly if the two routines agree about it. -/
theorem nameIsEqual_iff_keepsName (hlen : filename.length ≤ 12)
    (hname : ∀ k < 11, v.entryByte p k = fileName83 filename k) :
    v.nameIsEqual p filename ↔ KeepsName filename := by
  rw [nameIsEqual_iff, ← fillName83_eq_fileName83_iff hlen]
  refine forall₂_congr fun k hk => ?_
  rw [hname k hk, eq_comm]

theorem nameIsEqual_congr (h : SameEntry v v' r fun _ => False) (elem : List UInt8) :
    v'.nameIsEqual r elem = v.nameIsEqual r elem := by
  rw [Bool.eq_iff_iff, nameIsEqual_iff, nameIsEqual_iff]
  refine forall₂_congr fun k hk => ?_
  rw [h k (by unfold kEntryBytes; omega) id]

theorem fileName83_head_ne_zero (hnul : 0 ∉ filename) : fileName83 filename 0 ≠ 0 := by
  have hchar : ∀ name : List UInt8, 0 ∉ name → (name[0]?.map toupper).getD kSpace ≠ 0 := by
    intro name hname
    cases name with
    | nil => decide
    | cons a name =>
      exact (toupper_eq_iff (by decide)).not.mpr fun ha => hname (ha ▸ List.mem_cons_self)
  by_cases hdot : kDot ∈ filename
  · obtain ⟨base, ext, rfl, hext⟩ := exists_splitLast hdot
    rw [fileName83_append hext]
    exact hchar base fun hmem => hnul (List.mem_append_left _ hmem)
  · rw [fileName83_of_notMem hdot]
    exact hchar filename hnul

/-! ## The directory afterwards -/

theorem takeWhile_congr {α : Type} {f g : α → Bool} {xs : List α} (h : ∀ x ∈ xs, f x = g x) :
    xs.takeWhile f = xs.takeWhile g := by
  induction xs with
  | nil => rfl
  | cons x xs ih =>
    rw [List.takeWhile_cons, List.takeWhile_cons, h x List.mem_cons_self,
      ih fun y hy => h y (List.mem_cons_of_mem x hy)]

theorem find?_congr {α : Type} {f g : α → Bool} {xs : List α} (h : ∀ x ∈ xs, f x = g x) :
    xs.find? f = xs.find? g := by
  induction xs with
  | nil => rfl
  | cons x xs ih =>
    rw [List.find?_cons, List.find?_cons, h x List.mem_cons_self,
      ih fun y hy => h y (List.mem_cons_of_mem x hy)]

theorem slotsOf_congr (hbytes : v'.bytesPerCluster = v.bytesPerCluster) (l : List Nat) :
    v'.slotsOf l = v.slotsOf l := by
  unfold slotsOf entriesPerCluster
  rw [hbytes]

theorem slotsOf_nodup (v : Volume) (hl : l.Nodup) : (v.slotsOf l).Nodup := by
  refine List.nodup_flatMap.mpr ⟨fun y _ => ?_, hl.imp fun hne p hp hp' => ?_⟩
  · exact List.nodup_range.map fun i j hij => congrArg EntryPtr.index hij
  · obtain ⟨i, -, rfl⟩ := List.mem_map.mp hp
    obtain ⟨j, -, heq⟩ := List.mem_map.mp hp'
    exact hne (congrArg EntryPtr.cluster heq).symm

/-- The entry `p` with the name comes into the directory with the clusters `l` and is listed there: at the
end, or where a deleted entry was. -/
structure Enters (v v' : Volume) (c : Nat) (l : List Nat) (p : EntryPtr) (filename : List UInt8) : Prop where
  numFatEntries : v'.numFatEntries = v.numFatEntries
  rootCluster : v'.rootCluster = v.rootCluster
  bytesPerCluster : v'.bytesPerCluster = v.bytesPerCluster
  name : ∀ k < 11, v'.entryByte p k = fileName83 filename k
  place : p.cluster ∈ l ∨ p.cluster ∈ v.freeClusters
  fat : ∀ x, x ∉ l → x ∉ v.freeClusters → v'.fat x = v.fat x
  data : ∀ x, x ∉ l → x ∉ v.freeClusters → v'.data x = v.data x
  entries : ∃ l' s s', v'.ClusterChain c l' ∧ v'.entriesOf l' = s ++ p :: s' ∧ p ∉ s ∧
    (v.entriesOf l = s ∨ v.entriesOf l = s ++ p :: s' ∧ v.entryByte p 0 = kDeleted)
  others : ∀ r ∈ v.entriesOf l, r ≠ p → SameEntry v v' r fun _ => False

theorem entriesOf_append {s s' : List EntryPtr} (h : v.slotsOf l = s ++ p :: s')
    (hs : ∀ r ∈ s, v.entryByte r 0 ≠ 0) (hp : v.entryByte p 0 ≠ 0) :
    v.entriesOf l = s ++ p :: s'.takeWhile (v.entryByte · 0 ≠ 0) := by
  unfold entriesOf
  rw [h, List.takeWhile_append_of_pos fun r hr => decide_eq_true (hs r hr),
    List.takeWhile_cons_of_pos (p := fun r => decide (v.entryByte r 0 ≠ 0)) (decide_eq_true hp)]

theorem entryByte_create (v : Volume) (p : EntryPtr) (filename : List UInt8) {k : Nat} (hk : k < 11) :
    ((v.setFileName p filename).setFileSize p 0).entryByte p k = fileName83 filename k := by
  rw [sameEntry_setFileSize _ p 0 p k (by unfold kEntryBytes; omega) (by omega),
    entryByte_setFileName v p filename hk]

theorem sameEntry_create_of_ne (v : Volume) (filename : List UInt8) (hne : r ≠ p) :
    SameEntry v ((v.setFileName p filename).setFileSize p 0) r fun _ => False :=
  (sameEntry_create v p filename r).mono fun _ hk => hne hk.1

/-- The first unused slot is taken. -/
theorem enters_slot (hl : v.ClusterChain c l) (hnul : 0 ∉ filename) {s rest : List EntryPtr}
    (hslots : v.slotsOf l = s ++ p :: rest) (hs : ∀ r ∈ s, ¬ v.isUnused r) (hp : v.isUnused p) :
    Enters v ((v.setFileName p filename).setFileSize p 0) c l p filename := by
  have hused : ∀ r ∈ s, v.entryByte r 0 ≠ 0 := fun r hr hz => hs r hr (isUnused_iff.mpr (.inl hz))
  have hps : p ∉ s := fun hmem => hs p hmem hp
  have hrest : p ∉ rest := by
    have hnodup := v.slotsOf_nodup hl.nodup
    rw [hslots] at hnodup
    exact (List.nodup_cons.mp hnodup.of_append_right).1
  have hcluster : p.cluster ∈ l :=
    (mem_slotsOf.mp (hslots ▸ List.mem_append_right s List.mem_cons_self)).1
  have honly := onlyEntry_create v p filename
  have hname : ∀ k < 11, ((v.setFileName p filename).setFileSize p 0).entryByte p k =
      fileName83 filename k := fun k hk => entryByte_create v p filename hk
  have hsame : ∀ r ≠ p, SameEntry v ((v.setFileName p filename).setFileSize p 0) r fun _ => False :=
    fun r hr => sameEntry_create_of_ne v filename hr
  -- from here on it only matters that the entry has the name and that all else is the same
  generalize (v.setFileName p filename).setFileSize p 0 = v' at honly hname hsame
  have hentries : v'.entriesOf l = s ++ p :: rest.takeWhile (v'.entryByte · 0 ≠ 0) := by
    apply entriesOf_append
    · rw [slotsOf_congr honly.bytesPerCluster, hslots]
    · intro r hr
      rw [hsame r (fun he => hps (he ▸ hr)) 0 (by decide) id]
      exact hused r hr
    · rw [hname 0 (by decide)]
      exact fileName83_head_ne_zero hnul
  refine ⟨honly.numFatEntries, honly.rootCluster, honly.bytesPerCluster, hname, .inl hcluster,
    fun x _ _ => congrFun honly.fat x, fun x hx _ => funext fun k => honly.data x k fun he =>
      hx (he.1 ▸ hcluster), ⟨l, s, _, hl.congr honly.numFatEntries fun x _ => congrFun honly.fat x,
      hentries, hps, ?_⟩, fun r _ hr => hsame r hr⟩
  by_cases hz : v.entryByte p 0 = 0
  · -- behind the last entry
    apply Or.inl
    unfold entriesOf
    rw [hslots, List.takeWhile_append_of_pos fun r hr => decide_eq_true (hused r hr),
      List.takeWhile_cons_of_neg (by simpa using hz), List.append_nil]
  · -- in place of a deleted one
    refine .inr ⟨?_, (isUnused_iff.mp hp).resolve_left hz⟩
    rw [entriesOf_append hslots hused hz]
    congr 2
    -- a slot is only once in the directory, so that those behind it are the same
    apply takeWhile_congr
    intro r hr
    rw [hsame r (fun he => hrest (he ▸ hr)) 0 (by decide) id]

/-- A cluster is added, and its first slot is taken. -/
theorem enters_cluster (hper : 0 < v.entriesPerCluster) (hmax : v.numFatEntries ≤ kMaxFatEntries)
    (hl : v.ClusterChain c l) (hnul : 0 ∉ filename) {e : Nat} (he : l.getLast? = some e)
    (hslots : ∀ r ∈ v.slotsOf l, ¬ v.isUnused r) (hx : x ∈ v.freeClusters) :
    Enters v ((((v.relink e [x]).clearCluster x).setFileName ⟨x, 0⟩ filename).setFileSize ⟨x, 0⟩ 0) c l
      ⟨x, 0⟩ filename := by
  have happ := hl.appended hmax he (List.nodup_singleton x)
    (List.cons_subset.mpr ⟨hx, List.nil_subset _⟩)
  have hdata := happ.sameData
  have hxl : x ∉ l := fun hmem => hl.not_free hmem hx
  -- all slots are in use, so that the listing goes on into the new cluster
  have hused : ∀ r ∈ v.slotsOf l, v.entryByte r 0 ≠ 0 := fun r hr hz =>
    hslots r hr (isUnused_iff.mpr (.inl hz))
  have honly := onlyEntry_create ((v.relink e [x]).clearCluster x) ⟨x, 0⟩ filename
  have hbytes := honly.bytesPerCluster.trans hdata.bytesPerCluster
  have hnum := honly.numFatEntries.trans hdata.numFatEntries
  have hfat : ∀ y, _ = (v.relink e [x]).fat y := fun y => congrFun honly.fat y
  have hother : ∀ y ≠ x, _ = v.data y := fun y hy => (funext fun k =>
    honly.data y k fun hk => hy hk.1).trans ((setCluster_of_ne _ _ hy).trans (congrFun hdata.data y))
  have hname : ∀ k < 11, ((((v.relink e [x]).clearCluster x).setFileName ⟨x, 0⟩ filename).setFileSize
      ⟨x, 0⟩ 0).entryByte ⟨x, 0⟩ k = fileName83 filename k := fun k hk => entryByte_create _ _ filename hk
  have hroot := honly.rootCluster.trans hdata.rootCluster
  generalize (((v.relink e [x]).clearCluster x).setFileName ⟨x, 0⟩ filename).setFileSize ⟨x, 0⟩ 0 = v'
    at hbytes hnum hfat hother hname hroot
  have hsame : ∀ r ∈ v.slotsOf l, SameEntry v v' r fun _ => False := fun r hr =>
    SameEntry.of_data (hother _ fun heq => hxl (heq ▸ (mem_slotsOf.mp hr).1)) _
  obtain ⟨rest, hrest⟩ : ∃ rest, v'.slotsOf (l ++ [x]) = v.slotsOf l ++ ⟨x, 0⟩ :: rest := by
    obtain ⟨n, hn⟩ : ∃ n, v.entriesPerCluster = n + 1 := ⟨v.entriesPerCluster - 1, by omega⟩
    refine ⟨((List.range n).map Nat.succ).map (⟨x, ·⟩), ?_⟩
    rw [slotsOf_congr hbytes]
    unfold slotsOf
    rw [List.flatMap_append, List.flatMap_singleton, hn, List.range_succ_eq_map, List.map_cons]
  refine ⟨hnum, hroot, hbytes, hname, .inr hx, fun y hy hfree => ?_, fun y _ hfree =>
    hother y fun heq => hfree (heq ▸ hx), ⟨l ++ [x], v.slotsOf l, rest.takeWhile (v'.entryByte · 0 ≠ 0),
      happ.chain.congr ?_ fun y _ => hfat y, entriesOf_append hrest ?_ ?_, ?_, .inl ?_⟩, ?_⟩
  · rw [hfat]
    exact happ.fat y (fun hlast => hy (List.mem_of_getLast? hlast)) fun hmem =>
      hfree (List.mem_singleton.mp hmem ▸ hx)
  · rw [hnum, hdata.numFatEntries]
  · intro r hr
    rw [hsame r hr 0 (by decide) id]
    exact hused r hr
  · rw [hname 0 (by decide)]
    exact fileName83_head_ne_zero hnul
  · exact fun hmem => hxl (mem_slotsOf.mp hmem).1
  · exact List.takeWhile_eq_self_iff.mpr fun r hr => decide_eq_true (hused r hr)
  · exact fun r hr _ => hsame r ((List.takeWhile_prefix _).subset hr)

theorem enters_of_createIn (hper : 0 < v.entriesPerCluster) (hmax : v.numFatEntries ≤ kMaxFatEntries)
    (hl : v.ClusterChain c l) (hnul : 0 ∉ filename)
    (h : v.createIn c filename = some (⟨some p, .kSuccess⟩, v')) : Enters v v' c l p filename := by
  have hlast := List.getLast?_eq_some_getLast hl.chain.ne_nil
  unfold createIn at h
  rw [allocateEntry_eq hmax hl hlast (Nat.le_succ_of_le hl.length_le)] at h
  cases hfind : (v.slotsOf l).find? v.isUnused with
  | some p' =>
    rw [hfind] at h
    cases h
    obtain ⟨hunused, s, rest, hslots, hs⟩ := List.find?_eq_some_iff_append.mp hfind
    exact enters_slot hl hnul hslots (fun r hr => by simpa using hs r hr) hunused
  | none =>
    rw [hfind] at h
    obtain ⟨⟨q, u⟩, hentry, heq⟩ := Option.map_eq_some_iff.mp h
    obtain ⟨x, hx, hput⟩ := Option.map_eq_some_iff.mp hentry
    cases hput
    cases heq
    exact enters_cluster hper hmax hl hnul hlast (List.find?_eq_none.mp hfind) (List.mem_of_head? hx)

/-! ## Lookups afterwards -/

theorem Finds.mem (hmax : v.numFatEntries ≤ kMaxFatEntries) (hl : v.ClusterChain c l)
    (h : v.Finds elem c r) : r ∈ v.entriesOf l :=
  List.mem_of_find?_eq_some ((finds_iff hmax hl).mp h).2

/-- The other directories are as they were. -/
theorem Enters.other (he : Enters v v' c l p filename) (h : v.Layout dir) (hc : v.Owns dir o c)
    (hl : v.ClusterChain c l) (hd : v.Owns dir o' d) (hne : o' ≠ o) (hm : v.ClusterChain d m) :
    v'.ClusterChain d m ∧ v'.entriesOf m = v.entriesOf m ∧
      ∀ r ∈ v.entriesOf m, r ≠ p ∧ SameEntry v v' r fun _ => False := by
  -- directories with different owners have no cluster in common
  have hapart : ∀ y ∈ m, y ∉ l ∧ y ∉ v.freeClusters := fun y hy =>
    ⟨fun hyl => h.family.disjoint _ _ _ _ _ _ hd hc hne hm.chain hl.chain hy hyl, hm.not_free hy⟩
  have hsame : ∀ r ∈ v.slotsOf m, SameEntry v v' r fun _ => False := by
    intro r hr
    obtain ⟨hyl, hyf⟩ := hapart _ (mem_slotsOf.mp hr).1
    exact SameEntry.of_data (he.data _ hyl hyf) _
  refine ⟨hm.congr he.numFatEntries fun y hy => he.fat y (hapart y hy).1 (hapart y hy).2, ?_, ?_⟩
  · unfold entriesOf
    rw [slotsOf_congr he.bytesPerCluster]
    apply takeWhile_congr
    intro r hr
    rw [hsame r hr 0 (by decide) id]
  · intro r hr
    have hslot := (List.takeWhile_prefix _).subset hr
    refine ⟨?_, hsame r hslot⟩
    rintro rfl
    obtain ⟨hyl, hyf⟩ := hapart _ (mem_slotsOf.mp hslot).1
    exact he.place.elim hyl hyf

theorem Enters.finds_other (he : Enters v v' c l p filename) (h : v.Layout dir) (hc : v.Owns dir o c)
    (hl : v.ClusterChain c l) (hd : v.Owns dir o' d) (hne : o' ≠ o) :
    v'.Finds elem d r ↔ v.Finds elem d r := by
  obtain ⟨m, hm⟩ := h.exists_chain hd
  obtain ⟨hm', hentries, hsame⟩ := he.other h hc hl hd hne hm
  have hmax := h.formatted.numFatEntries
  rw [finds_iff hmax hm, finds_iff (he.numFatEntries ▸ hmax) hm', hentries]
  have hfind : (v.entriesOf m).find? (v'.nameIsEqual · elem) =
      (v.entriesOf m).find? (v.nameIsEqual · elem) :=
    find?_congr fun r hr => nameIsEqual_congr (hsame r hr).2 elem
  rw [hfind]

/-- An entry of another directory is found as before, with the same bytes. -/
theorem Enters.keep_other (he : Enters v v' c l p filename) (h : v.Layout dir) (hc : v.Owns dir o c)
    (hl : v.ClusterChain c l) (hd : v.Owns dir o' d) (hne : o' ≠ o) (hfind : v.Finds elem d r) :
    v'.Finds elem d r ∧ v'.attr r = v.attr r ∧ v'.firstCluster r = v.firstCluster r := by
  obtain ⟨m, hm⟩ := h.exists_chain hd
  obtain ⟨-, hsame⟩ := (he.other h hc hl hd hne hm).2.2 r (hfind.mem h.formatted.numFatEntries hm)
  exact ⟨(he.finds_other h hc hl hd hne).mpr hfind, attr_congr hsame id,
    firstCluster_congr hsame fun _ _ _ => id⟩

/-- An entry that is found under the file name has kept it. -/
theorem Enters.keepsName_of_finds (he : Enters v v' c l p filename)
    (hmax : v.numFatEntries ≤ kMaxFatEntries) (hlen : filename.length ≤ 12)
    (hfind : v'.Finds filename c p) : KeepsName filename := by
  obtain ⟨l', s, s', hl', -⟩ := he.entries
  rw [← nameIsEqual_iff_keepsName hlen he.name]
  exact List.find?_some (p := (v'.nameIsEqual · filename))
    ((Volume.finds_iff (he.numFatEntries ▸ hmax) hl').mp hfind).2

/-- The file name finds the new entry exactly if the entry has kept it. -/
theorem Enters.finds_iff (he : Enters v v' c l p filename) (hmax : v.numFatEntries ≤ kMaxFatEntries)
    (hlen : filename.length ≤ 12)
    (hnone : (v.entriesOf l).find? (v.nameIsEqual · filename) = none) :
    v'.Finds filename c p ↔ KeepsName filename := by
  refine ⟨he.keepsName_of_finds hmax hlen, fun hkeeps => ?_⟩
  obtain ⟨l', s, s', hl', hentries, hps, hbefore⟩ := he.entries
  refine (Volume.finds_iff (he.numFatEntries ▸ hmax) hl').mpr ⟨hlen, hentries ▸ ?_⟩
  refine List.find?_eq_some_iff_append.mpr
    ⟨(nameIsEqual_iff_keepsName hlen he.name).mpr hkeeps, s, s', rfl, fun r hr => ?_⟩
  -- the entries in front of it did not have the name
  have hmem : r ∈ v.entriesOf l := by
    rcases hbefore with hb | ⟨hb, -⟩
    · exact hb ▸ hr
    · exact hb ▸ List.mem_append_left _ hr
  rw [nameIsEqual_congr (he.others r hmem fun heq => hps (heq ▸ hr)) filename]
  simpa using List.find?_eq_none.mp hnone r hmem

/-- The other entries of the directory are found as before: a name that finds the new entry as well would be
the name of the file, which was not there. -/
theorem Enters.keep_self (he : Enters v v' c l p filename) (hmax : v.numFatEntries ≤ kMaxFatEntries)
    (hl : v.ClusterChain c l) (hlen : filename.length ≤ 12) (hkeeps : KeepsName filename)
    (hnone : (v.entriesOf l).find? (v.nameIsEqual · filename) = none)
    (helem : elem.head? ≠ some kDeleted) (hfind : v.Finds elem c r) :
    v'.Finds elem c r ∧ v'.attr r = v.attr r ∧ v'.firstCluster r = v.firstCluster r := by
  obtain ⟨l', s, s', hl', hentries, hps, hbefore⟩ := he.entries
  obtain ⟨hfit, hr⟩ := (Volume.finds_iff hmax hl).mp hfind
  have hmem := List.mem_of_find?_eq_some hr
  have hequal : v.nameIsEqual r elem := List.find?_some (p := (v.nameIsEqual · elem)) hr
  -- the new entry does not have the name
  have hother : ¬ v'.nameIsEqual p elem := by
    intro hp
    apply List.find?_eq_none.mp hnone r hmem
    rw [nameIsEqual_iff] at hequal hp ⊢
    intro k hk
    rw [hequal k hk, ← hp k hk, he.name k hk, (fillName83_eq_fileName83_iff hlen).mpr hkeeps k hk]
  -- nor did a deleted one in its place
  have hdeleted : v.entryByte p 0 = kDeleted → ¬ v.nameIsEqual p elem := fun hp hpe =>
    (fillName83_head helem).2 ((nameIsEqual_head hpe).symm.trans hp)
  -- so the search makes the same choice at each of the old entries
  have htest : ∀ q ∈ v.entriesOf l, v'.nameIsEqual q elem = v.nameIsEqual q elem := by
    intro q hq
    by_cases hqp : q = p
    · subst hqp
      rcases hbefore with hb | ⟨-, hd⟩
      · exact absurd (hb ▸ hq) hps
      · rw [Bool.eq_false_iff.mpr hother, Bool.eq_false_iff.mpr (hdeleted hd)]
    · exact nameIsEqual_congr (he.others q hq hqp) elem
  have hne : r ≠ p := by
    rintro rfl
    rw [htest r hmem] at hother
    exact hother hequal
  have hsame := he.others r hmem hne
  refine ⟨(Volume.finds_iff (he.numFatEntries ▸ hmax) hl').mpr ⟨hfit, ?_⟩, attr_congr hsame id,
    firstCluster_congr hsame fun _ _ _ => id⟩
  rw [← find?_congr htest] at hr
  rcases hbefore with hb | ⟨hb, -⟩
  · rw [hentries, List.find?_append, ← hb, hr]
    rfl
  · rw [hentries, ← hb, hr]

/-! ## The way to the file name -/

theorem findElement_name_iff (hslash : kSlash ∉ filename) :
    (∃ b, v.findElement fuel filename c = some (some p, b)) ↔ v.Finds filename c p := by
  unfold findElement
  rw [nextPathElement_last hslash]
  dsimp only
  constructor
  · rintro ⟨b, h⟩
    split at h
    · cases h
    · rename_i hlen
      obtain ⟨found, hfind, h⟩ := Option.bind_eq_some_iff.mp h
      cases found with
      | none => cases h
      | some r =>
        cases h
        exact ⟨Nat.le_of_not_lt hlen, hfind⟩
  · intro h
    rw [if_neg (Nat.not_lt.mpr h.length_le), h.found]
    exact ⟨false, rfl⟩

/-- Behind the parent path the file name is looked up, in the parent directory or in the root directory. -/
theorem Walk.findFile {ds : List Nat} (h : v.Walk q (afterSlash parentDirName) v.rootCluster ds)
    (hattr : v.attr q = Attribute.kDirectory.code) (hfirst : v.firstCluster q ≠ 0)
    (hparent : parentDirName ≠ []) (hname : filename ≠ []) (hslash : kSlash ∉ filename)
    (hend : (afterSlash parentDirName).getLast? = some kSlash → ¬ RepeatsSlash (afterSlash parentDirName)) :
    ∃ m, v.findFile (parentDirName ++ kSlash :: filename) 0 = v.findElement m filename
      (if (afterSlash parentDirName).getLast? = some kSlash then v.rootCluster else v.firstCluster q) := by
  have hlen := length_afterSlash_le parentDirName
  obtain ⟨m, hm⟩ := h.findElement hattr hname hend
    (show (afterSlash parentDirName).length < (parentDirName ++ kSlash :: filename).length by
      rw [List.length_append, List.length_cons]
      omega)
  refine ⟨m, ?_⟩
  rw [Volume.findFile, findFileFrom_succ, afterSlash_append hparent, directoryFor, if_pos (.inr rfl), hm]
  split
  · exact findFileFrom_absolute v m filename _
  · have hhead : filename.head? ≠ some kSlash := fun he => hslash (List.mem_of_head? he)
    rw [findFileFrom_relative hhead, directoryAt, if_neg hfirst]

/-- Where `CreateFile` puts the entry: into the root directory, or into the one that the parent path leads
to. -/
theorem createFile_cases (h : v.createFile path = some (⟨some p, .kSuccess⟩, v')) :
    ∃ c, v.createIn c (nameOf path) = some (⟨some p, .kSuccess⟩, v') ∧ kSlash ∉ nameOf path ∧
      ((c = v.rootCluster ∧ ¬ NameBehindRun path ∧
          ∀ u : Volume, ∃ m, u.findFile path 0 = u.findElement m (nameOf path) u.rootCluster) ∨
        ∃ parentDirName q b, splitLast kSlash path = some (parentDirName, nameOf path) ∧
          parentDirName ≠ [] ∧ nameOf path ≠ [] ∧ v.findFile parentDirName 0 = some (some q, b) ∧
          v.attr q = Attribute.kDirectory.code ∧ c = v.firstCluster q) := by
  unfold Volume.createFile at h
  obtain ⟨parent, hparent, hput⟩ := Option.bind_eq_some_iff.mp h
  cases parent with
  | error err => cases hput
  | ok parent =>
    obtain ⟨c, filename⟩ := parent
    dsimp only at hput
    unfold parentDirectory at hparent
    unfold nameOf NameBehindRun
    cases hsplit : splitLast kSlash path with
    | none =>
      rw [hsplit] at hparent
      cases hparent
      have hslash : kSlash ∉ path := by
        intro hmem
        obtain ⟨base, ext, rfl, hext⟩ := exists_splitLast hmem
        rw [splitLast_append hext] at hsplit
        cases hsplit
      refine ⟨_, hput, hslash, .inl ⟨rfl, id, fun u => ⟨path.length, ?_⟩⟩⟩
      exact findFileFrom_relative (fun he => hslash (List.mem_of_head? he)) path.length 0
    | some parts =>
      obtain ⟨parentDirName, name⟩ := parts
      rw [hsplit] at hparent
      obtain ⟨hpath, hslash⟩ := eq_of_splitLast hsplit
      dsimp only at hparent ⊢
      by_cases hname : name = []
      · rw [if_pos hname] at hparent
        cases hparent
      rw [if_neg hname] at hparent
      by_cases hroot : parentDirName = []
      · rw [if_pos hroot] at hparent
        cases hparent
        subst hroot
        refine ⟨_, hput, hslash, .inl ⟨rfl, nofun, fun u => ⟨filename.length + 1, ?_⟩⟩⟩
        rw [hpath]
        exact findFileFrom_absolute u _ _ 0
      · rw [if_neg hroot] at hparent
        obtain ⟨⟨found, b⟩, hfind, hresult⟩ := Option.map_eq_some_iff.mp hparent
        cases found with
        | none => cases hresult
        | some q =>
          dsimp only at hresult
          split at hresult
          · cases hresult
          · rename_i hattr
            cases hresult
            exact ⟨_, hput, hslash, .inr ⟨parentDirName, q, b, rfl, hroot, hname, hfind, not_not.mp hattr, rfl⟩⟩

/-- The parent directory has an owner of its own and a chain. -/
theorem createFile_parent (h : v.Layout dir) (hfind : v.findFile parentDirName 0 = some (some q, b))
    (hattr : v.attr q = Attribute.kDirectory.code) (hpath : ¬ NamesDeleted parentDirName)
    (hcreate : v.createIn (v.firstCluster q) filename = some (⟨some p, .kSuccess⟩, v')) :
    v.IsDirectory dir (some q) (v.firstCluster q) := by
  refine ⟨(findFile_named h hpath hfind).owns hattr fun hzero => ?_, hattr⟩
  rw [hzero, createIn_zero] at hcreate
  cases hcreate

theorem Layout.enters (h : v.Layout dir) (ho : v.IsDirectory dir o c) (hnul : 0 ∉ filename)
    (hcreate : v.createIn c filename = some (⟨some p, .kSuccess⟩, v')) :
    ∃ l, v.ClusterChain c l ∧ Enters v v' c l p filename := by
  obtain ⟨l, hl⟩ := h.exists_chain ho.1
  exact ⟨l, hl, enters_of_createIn (Nat.div_pos h.formatted.bytesPerCluster (by decide))
    h.formatted.numFatEntries hl hnul hcreate⟩

/-- What the file name finds in its directory, where it did not find anything before. -/
theorem Enters.findElement_iff (he : Enters v v' c l p filename) (hmax : v.numFatEntries ≤ kMaxFatEntries)
    (hl : v.ClusterChain c l) (hslash : kSlash ∉ filename) (hlen : filename.length ≤ 12)
    (hbefore : v.findElement fuel filename c = some (none, b)) (m : Nat) :
    (∃ b', v'.findElement m filename c = some (some p, b')) ↔ KeepsName filename := by
  rw [findElement_last hmax hl (nextPathElement_last hslash) hlen (.inl rfl)] at hbefore
  rw [findElement_name_iff hslash,
    he.finds_iff hmax hlen (congrArg Prod.fst (Option.some.inj hbefore))]

/-- Where the two routines agree about the file name and no second slash stands in front of it, the new entry
is found. -/
theorem createFile_findFile (h : v.Layout dir) (hnul : 0 ∉ nameOf path) (hlen : (nameOf path).length ≤ 12)
    (hpath : ∀ parentDirName filename, splitLast kSlash path = some (parentDirName, filename) →
      ¬ NamesDeleted parentDirName)
    (hbefore : v.findFile path 0 = some (none, b))
    (hcreate : v.createFile path = some (⟨some p, .kSuccess⟩, v')) (hkeeps : KeepsName (nameOf path))
    (hrun : ¬ NameBehindRun path) : ∃ b', v'.findFile path 0 = some (some p, b') := by
  have hmax := h.formatted.numFatEntries
  obtain ⟨c, hcreateIn, hslash, ⟨rfl, -, hroot⟩ |
    ⟨parentDirName, q, b', hsplit, hparent, hname, hfind, hattr, rfl⟩⟩ := createFile_cases hcreate
  · -- in the root directory
    obtain ⟨l, hl, he⟩ := h.enters isDirectory_root hnul hcreateIn
    obtain ⟨m, hm⟩ := hroot v
    obtain ⟨m', hm'⟩ := hroot v'
    rw [hm', he.rootCluster]
    exact (he.findElement_iff hmax hl hslash hlen (hm.symm.trans hbefore) m').mpr hkeeps
  · -- in the directory that the parent path leads to
    have hnames := hpath _ _ hsplit
    have ho := createFile_parent h hfind hattr hnames hcreateIn
    obtain ⟨l, hl, he⟩ := h.enters ho hnul hcreateIn
    obtain ⟨heq, -⟩ := eq_of_splitLast hsplit
    have hend : (afterSlash parentDirName).getLast? ≠ some kSlash := by
      unfold NameBehindRun at hrun
      rwa [hsplit] at hrun
    obtain ⟨ds, hwalk⟩ := walk_of_findFileFrom hattr hfind
    rw [directoryFor, if_pos (.inr rfl)] at hwalk
    -- before the call, the file name was looked up in this directory and not found
    obtain ⟨m, hm⟩ := hwalk.findFile hattr hl.ne_zero hparent hname hslash fun he => absurd he hend
    rw [← heq, if_neg hend, hbefore] at hm
    -- all lookups of the parent path are as before
    obtain ⟨howned, -⟩ := hwalk.owned h (namesDeleted_afterSlash hnames) isDirectory_root
    obtain ⟨hwalk', hattr', hfirst'⟩ := hwalk.keep he.rootCluster (namesDeleted_afterSlash hnames)
      fun d hd elem r helem hr => by
        obtain ⟨o', ho'⟩ := howned d hd
        by_cases heq : o' = some q
        · subst heq
          obtain rfl := ho'.1.unique ho.1
          have hnone := hm.symm
          rw [findElement_last hmax hl (nextPathElement_last hslash) hlen (.inl rfl)] at hnone
          exact he.keep_self hmax hl hlen hkeeps (congrArg Prod.fst (Option.some.inj hnone)) helem hr
        · exact he.keep_other h ho.1 hl ho'.1 heq hr
    rw [← he.rootCluster] at hwalk'
    obtain ⟨m', hm'⟩ := hwalk'.findFile (hattr'.trans hattr) (hfirst' ▸ hl.ne_zero) hparent hname hslash
      fun he => absurd he hend
    rw [← heq, if_neg hend, hfirst'] at hm'
    rw [hm']
    exact (he.findElement_iff hmax hl hslash hlen hm.symm m').mpr hkeeps

/-- On a tree whose directories have clusters, and for a path without other runs of slashes, the new entry is
found only then. -/
theorem keepsName_of_findFile (h : v.Layout dir) (hnul : 0 ∉ nameOf path) (hlen : (nameOf path).length ≤ 12)
    (hpath : ∀ parentDirName filename, splitLast kSlash path = some (parentDirName, filename) →
      ¬ NamesDeleted parentDirName ∧ ¬ RepeatsSlash parentDirName)
    (hdirs : ∀ r, v.Named dir r → v.attr r = Attribute.kDirectory.code → v.firstCluster r ≠ 0)
    (hcreate : v.createFile path = some (⟨some p, .kSuccess⟩, v'))
    (hafter : v'.findFile path 0 = some (some p, b)) : KeepsName (nameOf path) ∧ ¬ NameBehindRun path := by
  have hmax := h.formatted.numFatEntries
  obtain ⟨c, hcreateIn, hslash, ⟨rfl, hrun, hroot⟩ |
    ⟨parentDirName, q, b', hsplit, hparent, hname, hfind, hattr, rfl⟩⟩ := createFile_cases hcreate
  · obtain ⟨l, hl, he⟩ := h.enters isDirectory_root hnul hcreateIn
    obtain ⟨m, hm⟩ := hroot v'
    rw [hm, he.rootCluster] at hafter
    exact ⟨he.keepsName_of_finds hmax hlen ((findElement_name_iff hslash).mp ⟨b, hafter⟩), hrun⟩
  · -- in the directory that the parent path leads to
    obtain ⟨hnames, hruns⟩ := hpath _ _ hsplit
    have ho := createFile_parent h hfind hattr hnames hcreateIn
    obtain ⟨l, hl, he⟩ := h.enters ho hnul hcreateIn
    obtain ⟨heq, -⟩ := eq_of_splitLast hsplit
    obtain ⟨ds, hwalk⟩ := walk_of_findFileFrom hattr hfind
    rw [directoryFor, if_pos (.inr rfl)] at hwalk
    have hruns' := repeatsSlash_afterSlash hruns
    -- the parent path does not come through the directory that the entry is in
    obtain ⟨m, -, hq, hall⟩ := hwalk.nested h (namesDeleted_afterSlash hnames) hruns' hdirs
      isDirectory_root .root
    obtain ⟨hwalk', hattr', hfirst'⟩ := hwalk.keep he.rootCluster (namesDeleted_afterSlash hnames)
      fun d hd elem r helem hr => by
        obtain ⟨k, o', hlt, hk, ho'⟩ := hall d hd
        refine he.keep_other h ho.1 hl ho'.1 ?_ hr
        rintro rfl
        exact absurd (hk.unique h hq) (Nat.ne_of_lt hlt)
    rw [← he.rootCluster] at hwalk'
    obtain ⟨m', hm'⟩ := hwalk'.findFile (hattr'.trans hattr) (hfirst' ▸ hl.ne_zero) hparent hname hslash
      fun _ => hruns'
    rw [← heq, hafter] at hm'
    by_cases hend : (afterSlash parentDirName).getLast? = some kSlash
    · -- the root directory does not have the entry
      rw [if_pos hend, he.rootCluster] at hm'
      have hfinds := (findElement_name_iff hslash).mp ⟨b, hm'.symm⟩
      have howns : v.Owns dir none v.rootCluster := rfl
      obtain ⟨root, hroot⟩ := h.exists_chain howns
      have hbefore := (he.finds_other h ho.1 hl howns nofun).mp hfinds
      exact absurd rfl ((he.other h ho.1 hl howns nofun hroot).2.2 p (hbefore.mem hmax hroot)).1
    · rw [if_neg hend, hfirst'] at hm'
      refine ⟨he.keepsName_of_finds hmax hlen ((findElement_name_iff hslash).mp ⟨b, hm'.symm⟩), ?_⟩
      unfold NameBehindRun
      rwa [hsplit]

end Volume

open Volume

/-- **Create, then find.**  A name finds the entry that it was stored in exactly if the two routines agree about
it.  On a well-formed volume, a file that was not there before is found after `CreateFile` if that is so and no
second slash stands in front of its name; where all directories have clusters and the parent path has no runs of
slashes, only if. -/
theorem create_then_find_iff {v : Volume} (hwell : v.WellFormed) :
    (∀ (u : Volume) (p : EntryPtr) (name : List UInt8), name.length ≤ 12 →
      ((u.setFileName p name).nameIsEqual p name ↔ KeepsName name)) ∧
    ∀ (v' : Volume) (path : List UInt8) (p : EntryPtr) (b : Bool), 0 ∉ nameOf path →
      (nameOf path).length ≤ 12 →
      (∀ parentDirName filename, splitLast kSlash path = some (parentDirName, filename) →
        ¬ NamesDeleted parentDirName) →
      v.findFile path 0 = some (none, b) → v.createFile path = some (⟨some p, .kSuccess⟩, v') →
      (KeepsName (nameOf path) ∧ ¬ NameBehindRun path → ∃ b', v'.findFile path 0 = some (some p, b')) ∧
      ((∀ r, v.Named v.DirCluster r → v.attr r = Attribute.kDirectory.code → v.firstCluster r ≠ 0) →
        (∀ parentDirName filename, splitLast kSlash path = some (parentDirName, filename) →
          ¬ RepeatsSlash parentDirName) →
        (∃ b', v'.findFile path 0 = some (some p, b')) →
        KeepsName (nameOf path) ∧ ¬ NameBehindRun path) := by
  refine ⟨fun u p name hlen => nameIsEqual_iff_keepsName hlen fun k hk => entryByte_setFileName u p name hk,
    fun v' path p b hnul hlen hpath hbefore hcreate => ⟨fun ⟨hkeeps, hrun⟩ => ?_, ?_⟩⟩
  · exact createFile_findFile hwell.layout hnul hlen hpath hbefore hcreate hkeeps hrun
  · rintro hdirs hruns ⟨b', hafter⟩
    exact keepsName_of_findFile hwell.layout hnul hlen
      (fun parentDirName filename hsplit =>
        ⟨hpath parentDirName filename hsplit, hruns parentDirName filename hsplit⟩) hdirs hcreate hafter

theorem subdirectoryVolume_firstCluster {r : EntryPtr}
    (h : subdirectoryVolume.Named subdirectoryVolume.DirCluster r) : subdirectoryVolume.firstCluster r ≠ 0 := by
  obtain ⟨c, i⟩ := r
  obtain rfl : i = 0 := Nat.lt_one_iff.mp h.slot.2
  rcases List.mem_pair.mp (subdirectoryVolume_layout.dir_of_dirCluster h.slot.1) with hc | hc
  · obtain rfl : c = 2 := hc
    decide
  · obtain rfl : c = 3 := hc
    exact absurd rfl h.name_ne_zero

theorem create_then_find_iff_subdirectory :
    (∃ v', subdirectoryVolume.createFile (bytesOf "D/B") = some (⟨some ⟨3, 0⟩, .kSuccess⟩, v') ∧
      ∃ b, v'.findFile (bytesOf "D/B") 0 = some (some ⟨3, 0⟩, b)) ∧
    ∃ v', subdirectoryVolume.createFile (bytesOf "D/a.b.c") = some (⟨some ⟨3, 0⟩, .kSuccess⟩, v') ∧
      ¬ ∃ b, v'.findFile (bytesOf "D/a.b.c") 0 = some (some ⟨3, 0⟩, b) := by
  have hparent : ∀ name path : List UInt8, splitLast kSlash path = some (bytesOf "D", name) →
      ∀ parentDirName filename, splitLast kSlash path = some (parentDirName, filename) →
        parentDirName = bytesOf "D" := fun name path hsplit parentDirName filename hsplit' =>
    (congrArg Prod.fst (Option.some.inj (hsplit.symm.trans hsplit'))).symm
  constructor
  · obtain ⟨v', hcreate⟩ : ∃ v',
        subdirectoryVolume.createFile (bytesOf "D/B") = some (⟨some ⟨3, 0⟩, .kSuccess⟩, v') := ⟨_, rfl⟩
    have hpath := hparent (bytesOf "B") (bytesOf "D/B") (by decide)
    exact ⟨v', hcreate, ((create_then_find_iff subdirectoryVolume_wellFormed).2 v' _ _ false (by decide)
      (by decide) (fun P F hsplit => hpath P F hsplit ▸ by decide) (by decide) hcreate).1 (by decide)⟩
  · obtain ⟨v', hcreate⟩ : ∃ v',
        subdirectoryVolume.createFile (bytesOf "D/a.b.c") = some (⟨some ⟨3, 0⟩, .kSuccess⟩, v') := ⟨_, rfl⟩
    have hpath := hparent (bytesOf "a.b.c") (bytesOf "D/a.b.c") (by decide)
    refine ⟨v', hcreate, fun hafter => ?_⟩
    have hcond := ((create_then_find_iff subdirectoryVolume_wellFormed).2 v' _ _ false (by decide)
      (by decide) (fun P F hsplit => hpath P F hsplit ▸ by decide) (by decide) hcreate).2
      (fun r hr _ => subdirectoryVolume_firstCluster hr)
      (fun P F hsplit => hpath P F hsplit ▸ not_repeatsSlash (by decide)) hafter
    exact absurd hcond (by decide)

/-- "longfilename" is stored as "LONGFILE", and looked for as "LONGFILE.NAM"; "D//B" is created in the directory
"D", and looked for in the root directory. -/
theorem create_then_find_fails :
    (oneFileVolume.WellFormed ∧ oneFileVolume.findFile (bytesOf "longfilename") 0 = some (none, false) ∧
      ∃ v', oneFileVolume.createFile (bytesOf "longfilename") = some (⟨some ⟨4, 0⟩, .kSuccess⟩, v') ∧
        v'.findFile (bytesOf "longfilename") 0 = some (none, false) ∧
        ¬ v'.nameIsEqual ⟨4, 0⟩ (bytesOf "longfilename")) ∧
    subdirectoryVolume.WellFormed ∧ subdirectoryVolume.findFile (bytesOf "D//B") 0 = some (none, false) ∧
      ∃ v', subdirectoryVolume.createFile (bytesOf "D//B") = some (⟨some ⟨3, 0⟩, .kSuccess⟩, v') ∧
        v'.findFile (bytesOf "D//B") 0 = some (none, false) := by
  constructor
  · refine ⟨oneFileVolume_wellFormed, by decide +kernel, ?_⟩
    obtain ⟨v', hcreate⟩ : ∃ v', oneFileVolume.createFile (bytesOf "longfilename") =
        some (⟨some ⟨4, 0⟩, .kSuccess⟩, v') := ⟨_, rfl⟩
    refine ⟨v', hcreate, ?_, ?_⟩
    · cases hcreate
      decide +kernel
    · cases hcreate
      decide +kernel
  · refine ⟨subdirectoryVolume_wellFormed, by decide +kernel, ?_⟩
    obtain ⟨v', hcreate⟩ : ∃ v', subdirectoryVolume.createFile (bytesOf "D//B") =
        some (⟨some ⟨3, 0⟩, .kSuccess⟩, v') := ⟨_, rfl⟩
    refine ⟨v', hcreate, ?_⟩
    cases hcreate
    decide +kernel

end MikanSaos
