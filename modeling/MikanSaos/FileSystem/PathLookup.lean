import MikanSaos.FileSystem.WellFormed
import Mathlib.Data.List.TakeDrop

/-!
# PathLookup — which slots `FindFile` and `AllocateEntry` return

Both walk the clusters of directories only.  `NameIsEqual` compares eleven bytes and does not look at
the mark of a deleted slot, so that a path element which starts with that mark finds deleted slots.
-/

open Reasoning

namespace MikanSaos

/-- An element of the path starts with the mark of a deleted slot. -/
def NamesDeleted (path : List UInt8) : Prop :=
  path.head? = some kDeleted ∨ [kSlash, kDeleted] <:+: path

instance (path : List UInt8) : Decidable (NamesDeleted path) :=
  inferInstanceAs (Decidable (_ ∨ _))

theorem NamesDeleted.append {next : List UInt8} (h : NamesDeleted next) (elem : List UInt8) :
    NamesDeleted (elem ++ kSlash :: next) := by
  apply Or.inr
  rcases h with h | h
  · cases next with
    | nil => cases h
    | cons c next =>
      obtain rfl : c = kDeleted := Option.some.inj h
      exact ⟨elem, next, by simp⟩
  · exact h.trans ((List.suffix_cons kSlash next).trans (List.suffix_append elem _)).isInfix

theorem NamesDeleted.of_prefix {path path' : List UInt8} (h : NamesDeleted path)
    (hp : path <+: path') : NamesDeleted path' := by
  rcases h with h | h
  · apply Or.inl
    obtain ⟨t, rfl⟩ := hp
    cases path with
    | nil => cases h
    | cons c path => exact h
  · exact .inr (h.trans hp.isInfix)

/-! ## Path elements -/

theorem nextPathElement_isPrefix (path : List UInt8) : (nextPathElement path).1 <+: path := by
  unfold nextPathElement
  rw [List.span_eq_takeWhile_dropWhile]
  split
  · rename_i elem h
    rw [← (Prod.mk.inj h).1]
    exact List.takeWhile_prefix _
  · rename_i elem c next h
    rw [← (Prod.mk.inj h).1]
    exact List.takeWhile_prefix _

/-- What follows an element follows a slash. -/
theorem nextPathElement_append {path next : List UInt8}
    (h : (nextPathElement path).2.1 = some next) :
    path = (nextPathElement path).1 ++ kSlash :: next := by
  unfold nextPathElement at h ⊢
  rw [List.span_eq_takeWhile_dropWhile] at h ⊢
  split at h
  · cases h
  · rename_i elem c rest hspan
    obtain ⟨helem, hdrop⟩ := Prod.mk.inj hspan
    have hc : c = kSlash := by
      have hhead := List.head?_dropWhile_not (fun b : UInt8 => decide (b ≠ kSlash)) path
      rw [hdrop] at hhead
      simpa using hhead
    dsimp only at h ⊢
    obtain rfl : rest = next := Option.some.inj h
    rw [← hc, ← helem, ← hdrop]
    exact List.takeWhile_append_dropWhile.symm

/-! ## Names -/

/-- Only letters change. -/
theorem toupper_eq_iff {c d : UInt8} (h : d < 0x41 ∨ 0x7a < d) : toupper c = d ↔ c = d := by
  unfold toupper
  split
  · -- a small letter, which is not `d`, and becomes a capital one, which is not `d`
    rename_i hlower
    have hle : (0x20 : UInt8) ≤ c := UInt8.le_trans (by decide) hlower.1
    have hlo := UInt8.le_iff_toNat_le.mp hlower.1
    have hhi := UInt8.le_iff_toNat_le.mp hlower.2
    rw [UInt8.lt_iff_toNat_lt, UInt8.lt_iff_toNat_lt] at h
    rw [← UInt8.toNat_inj, ← UInt8.toNat_inj, UInt8.toNat_sub_of_le _ _ hle]
    change 97 ≤ c.toNat at hlo
    change c.toNat ≤ 122 at hhi
    change d.toNat < 65 ∨ 122 < d.toNat at h
    change c.toNat - 32 = d.toNat ↔ c.toNat = d.toNat
    omega
  · exact Iff.rfl

/-- Behind the first byte of the name the first byte is not written again. -/
theorem fillName83_zero (name : List UInt8) {i83 : Nat} (hi : 0 < i83) (name83 : Nat → UInt8) :
    fillName83 name i83 name83 0 = name83 0 := by
  induction name generalizing i83 name83 with
  | nil => rfl
  | cons c name ih =>
    rw [fillName83]
    split
    · split
      · exact ih (by decide) name83
      · rw [ih (by omega), Function.update_of_ne (by omega)]
    · rfl

/-- The first byte of a name that is looked for is neither a dot nor the mark of a deleted slot. -/
theorem fillName83_head {name : List UInt8} (h : name.head? ≠ some kDeleted) :
    fillName83 name 0 (fun _ => kSpace) 0 ≠ kDot ∧
      fillName83 name 0 (fun _ => kSpace) 0 ≠ kDeleted := by
  cases name with
  | nil => exact ⟨by decide, by decide⟩
  | cons c name =>
    have hc : c ≠ kDeleted := fun he => h (he ▸ rfl)
    rw [fillName83, if_pos (by decide)]
    by_cases hdot : c = kDot
    · rw [if_pos hdot, fillName83_zero name (by decide)]
      exact ⟨by decide, by decide⟩
    · rw [if_neg hdot, fillName83_zero name (by decide), Function.update_self]
      exact ⟨(toupper_eq_iff (by decide)).not.mpr hdot, (toupper_eq_iff (by decide)).not.mpr hc⟩

namespace Volume

variable {v v' : Volume} {dir : Nat → Prop} {p : EntryPtr}

theorem nameIsEqual_head {elem : List UInt8} (h : v.nameIsEqual p elem) :
    v.entryByte p 0 = fillName83 elem 0 (fun _ => kSpace) 0 := by
  unfold nameIsEqual at h
  rw [List.all_eq_true] at h
  exact eq_of_beq (h 0 (by decide))

/-! ## `FindFile` -/

/-- A slot in use that is not "." or "..". -/
structure Named (v : Volume) (dir : Nat → Prop) (p : EntryPtr) : Prop where
  slot : v.Slot dir p
  name_ne_zero : v.entryByte p 0 ≠ 0
  name_ne_deleted : v.entryByte p 0 ≠ kDeleted
  not_dot : ¬ v.IsDot p

theorem IsDot.head (h : v.IsDot p) : v.entryByte p 0 = kDot := by
  rcases h.2 with h | h
  · exact (List.cons.inj h).1
  · exact (List.cons.inj h).1

/-- `FindFile` does not leave the clusters `dir`. -/
structure Searches (v : Volume) (dir : Nat → Prop) : Prop where
  root : dir v.rootCluster
  next : ∀ x, dir x → ∀ y, v.nextCluster x = some y → y = kEndOfClusterchain ∨ dir y
  sub : ∀ q, v.Named dir q → v.attr q = Attribute.kDirectory.code →
    v.firstCluster q = 0 ∨ dir (v.firstCluster q)

theorem findInDirectory_slot (h : v.Searches dir) {elem : List UInt8} {fuel cluster : Nat}
    (hc : cluster = kEndOfClusterchain ∨ dir cluster)
    (hfind : v.findInDirectory elem fuel cluster = some (some p)) :
    v.Slot dir p ∧ v.entryByte p 0 ≠ 0 ∧ v.nameIsEqual p elem := by
  induction fuel generalizing cluster with
  | zero => cases hfind
  | succ fuel ih =>
    rw [findInDirectory] at hfind
    split at hfind
    · cases hfind
    · rename_i hend
      have hdir := hc.resolve_left hend
      split at hfind
      · split at hfind
        · -- the search stops in this cluster
          rename_i i hi
          split at hfind
          · cases hfind
          · rename_i hname
            cases hfind
            have hmatch := List.find?_some hi
            have hindex := List.mem_range.mp (List.mem_of_find?_eq_some hi)
            rw [Bool.or_eq_true, beq_iff_eq] at hmatch
            exact ⟨⟨hdir, hindex⟩, hname, hmatch.resolve_left hname⟩
        · obtain ⟨y, hy, hrest⟩ := Option.bind_eq_some_iff.mp hfind
          exact ih (h.next _ hdir y hy) hrest
      · cases hfind

/-- An element that does not start with the mark finds a slot in use. -/
theorem findInDirectory_named (h : v.Searches dir) {elem : List UInt8} {fuel cluster : Nat}
    (hc : dir cluster) (helem : elem.head? ≠ some kDeleted)
    (hfind : v.findInDirectory elem fuel cluster = some (some p)) : v.Named dir p := by
  obtain ⟨hslot, hzero, hequal⟩ := findInDirectory_slot h (.inr hc) hfind
  obtain ⟨hdot, hdeleted⟩ := fillName83_head helem
  rw [← nameIsEqual_head hequal] at hdot hdeleted
  exact ⟨hslot, hzero, hdeleted, fun hd => hdot hd.head⟩

/-- A directory entry with a cluster owns its chain. -/
theorem Named.owns (h : v.Named dir p) (hattr : v.attr p = Attribute.kDirectory.code)
    (hfirst : v.firstCluster p ≠ 0) : v.Owns dir (some p) (v.firstCluster p) :=
  ⟨h.slot, ⟨h.name_ne_zero, h.name_ne_deleted, hfirst, by rw [hattr]; decide, h.not_dot⟩, rfl⟩

/-- A directory entry leads to a directory cluster, or to none. -/
theorem Named.firstCluster_dir (h : v.Layout dir) (hp : v.Named dir p)
    (hattr : v.attr p = Attribute.kDirectory.code) :
    v.firstCluster p = 0 ∨ dir (v.firstCluster p) := by
  by_cases hzero : v.firstCluster p = 0
  · exact .inl hzero
  · have howns := hp.owns hattr hzero
    obtain ⟨l, hl⟩ := h.exists_chain howns
    exact .inr (h.closed _ _ _ _ howns hattr hl hl.chain.head_mem)

theorem Layout.root_dir (h : v.Layout dir) : dir v.rootCluster := by
  obtain ⟨l, hl⟩ := h.exists_chain (show v.Owns dir none v.rootCluster from rfl)
  exact h.closed none _ _ _ rfl trivial hl hl.chain.head_mem

theorem findFileFrom_named (h : v.Searches dir) {fuel : Nat} {path : List UInt8} {cluster : Nat}
    {postSlash : Bool} (hpath : ¬ NamesDeleted path) (hc : cluster = 0 ∨ dir cluster)
    (hfind : v.findFileFrom fuel path cluster = some (some p, postSlash)) : v.Named dir p := by
  induction fuel generalizing path cluster with
  | zero => cases hfind
  | succ fuel ih =>
    rw [findFileFrom] at hfind
    dsimp only at hfind
    -- the path behind a slash at its start
    have hrest : ¬ NamesDeleted (if path.head? = some kSlash then path.tail else path) := by
      split
      · rename_i habs
        cases path with
        | nil => exact hpath
        | cons c path =>
          obtain rfl : c = kSlash := Option.some.inj habs
          exact fun hd => hpath (hd.append [])
      · exact hpath
    have hdir : dir (if path.head? = some kSlash ∨ cluster = 0 then v.rootCluster else cluster) := by
      split
      · exact h.root
      · rename_i hne
        exact hc.resolve_left fun hz => hne (.inr hz)
    generalize (if path.head? = some kSlash then path.tail else path) = path' at hfind hrest
    generalize (if path.head? = some kSlash ∨ cluster = 0 then v.rootCluster else cluster) = cluster'
      at hfind hdir
    have helem : (nextPathElement path').1.head? ≠ some kDeleted := by
      intro hhead
      exact hrest (NamesDeleted.of_prefix (.inl hhead) (nextPathElement_isPrefix path'))
    split at hfind
    · cases hfind
    · obtain ⟨r, hr, hfind⟩ := Option.bind_eq_some_iff.mp hfind
      cases r with
      | none => cases hfind
      | some q =>
        have hq := findInDirectory_named h hdir helem hr
        dsimp only at hfind
        split at hfind
        · rename_i c next hnext
          split at hfind
          · -- a directory on the way
            rename_i hattr
            apply ih _ (h.sub q hq hattr) hfind
            intro hd
            apply hrest
            rw [nextPathElement_append hnext]
            exact hd.append _
          · cases hfind
            exact hq
        · cases hfind
          exact hq

theorem Layout.searches (h : v.Layout dir) : v.Searches dir :=
  ⟨h.root_dir, fun _ hx _ hy => h.next_dir hx hy, fun _ hq hattr => hq.firstCluster_dir h hattr⟩

theorem findFile_named (h : v.Layout dir) {path : List UInt8} {postSlash : Bool}
    (hpath : ¬ NamesDeleted path) (hfind : v.findFile path 0 = some (some p, postSlash)) :
    v.Named dir p := findFileFrom_named h.searches hpath (.inl rfl) hfind

/-- On any volume, a path that does not name a deleted slot does not find one. -/
theorem findFile_ne_deleted {path : List UInt8} {postSlash : Bool} (hpath : ¬ NamesDeleted path)
    (hfind : v.findFile path 0 = some (some p, postSlash)) : v.entryByte p 0 ≠ kDeleted := by
  have hall : v.Searches fun _ => True := ⟨trivial, fun _ _ _ _ => .inr trivial, fun _ _ _ => .inr trivial⟩
  exact (findFileFrom_named hall hpath (.inl rfl) hfind).name_ne_deleted

/-! ## `AllocateEntry` -/

/-- The slot that `AllocateEntry` takes, if it needs no new cluster. -/
def freeSlot (v : Volume) : Nat → Nat → Option EntryPtr
  | 0, _ => none
  | fuel + 1, dirCluster =>
    match v.unusedIn dirCluster with
    | some i => some ⟨dirCluster, i⟩
    | none => (v.nextCluster dirCluster).bind fun next =>
      if next = kEndOfClusterchain then none else freeSlot v fuel next

/-- The walk along a chain ends at its last cluster. -/
theorem getLast?_of_next_end {c x : Nat} {l : List Nat} (hmax : v.numFatEntries ≤ kMaxFatEntries)
    (hl : v.ClusterChain c l) (hx : x ∈ l) (hnext : v.nextCluster x = some kEndOfClusterchain) :
    l.getLast? = some x := by
  obtain ⟨i, hi⟩ := List.mem_iff_getElem?.mp hx
  obtain ⟨heq, hne⟩ := nextCluster_eq hmax hl hi
  rw [heq] at hnext
  have hlt := (List.getElem?_eq_some_iff.mp hi).1
  cases hlast : l[i + 1]? with
  | some y =>
    rw [hlast] at hnext
    exact absurd (Option.some.inj hnext) (hne y hlast)
  | none =>
    have hge := List.getElem?_eq_none_iff.mp hlast
    rw [List.getLast?_eq_getElem?, show l.length - 1 = i by omega]
    exact hi

/-- `ExtendCluster` by one cluster, from any cluster of the chain. -/
theorem extendCluster_one {c e x y : Nat} {l : List Nat} {v' : Volume}
    (hmax : v.numFatEntries ≤ kMaxFatEntries) (hl : v.ClusterChain c l) (he : l.getLast? = some e)
    (hx : x ∈ l) (hext : v.extendCluster x 1 = some (y, v')) :
    y ∈ v.freeClusters ∧ v' = v.relink e [y] := by
  rw [hl.extendCluster_of_mem hmax hx he 1] at hext
  cases hfree : v.freeClusters with
  | nil =>
    rw [hfree] at hext
    cases hext
  | cons z rest =>
    rw [hfree, if_pos (by simp)] at hext
    cases hext
    exact ⟨List.mem_cons_self, rfl⟩

theorem allocateEntry_cases (h : v.Layout dir) {fuel cluster : Nat} (hc : dir cluster)
    (heq : v.allocateEntry fuel cluster = some (p, v')) :
    (v' = v ∧ v.freeSlot fuel cluster = some p ∧ v.Slot dir p ∧
      (v.entryByte p 0 = 0 ∨ v.entryByte p 0 = kDeleted)) ∨
    ∃ o c l e x, v.Owns dir o c ∧ v.OwnsDirectory o ∧ v.ClusterChain c l ∧ l.getLast? = some e ∧
      x ∈ v.freeClusters ∧ p = ⟨x, 0⟩ ∧ v' = (v.relink e [x]).clearCluster x := by
  induction fuel generalizing cluster with
  | zero => cases heq
  | succ fuel ih =>
    rw [allocateEntry] at heq
    rw [freeSlot]
    split at heq
    · cases hunused : v.unusedIn cluster with
      | some i =>
        -- a slot of this cluster
        rw [hunused] at heq
        cases heq
        have hname := List.find?_some hunused
        have hindex := List.mem_range.mp (List.mem_of_find?_eq_some hunused)
        rw [Bool.or_eq_true, beq_iff_eq, beq_iff_eq] at hname
        exact .inl ⟨rfl, rfl, ⟨hc, hindex⟩, hname⟩
      | none =>
        rw [hunused] at heq
        obtain ⟨next, hnext, heq⟩ := Option.bind_eq_some_iff.mp heq
        dsimp only
        rw [hnext, Option.bind_some]
        split at heq
        · -- the end of the directory
          rename_i hend
          obtain ⟨⟨y, v₁⟩, hext, heq⟩ := Option.map_eq_some_iff.mp heq
          cases heq
          obtain ⟨o, c, l, howns, hdir, hl, hmem⟩ := h.owned cluster hc
          have hmax := h.formatted.numFatEntries
          have hlast := getLast?_of_next_end hmax hl hmem (hend ▸ hnext)
          obtain ⟨hfree, rfl⟩ := extendCluster_one hmax hl hlast hmem hext
          exact .inr ⟨o, c, l, cluster, y, howns, hdir, hl, hlast, hfree, rfl, rfl⟩
        · rename_i hmore
          rw [if_neg hmore]
          exact ih ((h.next_dir hc hnext).resolve_left hmore) heq
    · cases heq

end Volume

end MikanSaos
