import MikanSaos.FileSystem.ShortNames

/-!
# PathResolution — `FindFile` and the entry that a path means

A directory is the list of its entries, cluster by cluster, up to the first unused one.  `resolve` takes
the elements of a path one after the other; which entry an element names is a test of its own, so that
the walk and the comparison of names can be looked at separately.
-/

open Reasoning

namespace MikanSaos

namespace Volume

/-! ## What a path means -/

/-- The clusters of the chain from `cluster` on. -/
def clustersFrom (v : Volume) : Nat → Nat → List Nat
  | 0, _ => []
  | fuel + 1, cluster =>
    cluster :: if isEndOfClusterchain (v.fat cluster) then [] else clustersFrom v fuel (v.fat cluster)

def slotsOf (v : Volume) (clusters : List Nat) : List EntryPtr :=
  clusters.flatMap fun cluster => (List.range v.entriesPerCluster).map (⟨cluster, ·⟩)

/-- The entries of a directory, before the first one that was never used. -/
def entriesOf (v : Volume) (clusters : List Nat) : List EntryPtr :=
  (v.slotsOf clusters).takeWhile (v.entryByte · 0 ≠ 0)

def entriesFrom (v : Volume) (cluster : Nat) : List EntryPtr :=
  v.entriesOf (v.clustersFrom v.numFatEntries cluster)

/-- The directory that a cluster number stands for: 0 is the root directory. -/
def directoryAt (v : Volume) (cluster : Nat) : Nat := if cluster = 0 then v.rootCluster else cluster

/-- The entry that the elements lead to from the directory at `cluster`, and whether a slash follows the
element at which the search ends; `names elem p` tells whether `elem` names the entry `p`. -/
def resolveBy (v : Volume) (names : List UInt8 → EntryPtr → Bool) (trailing : Bool) :
    List (List UInt8) → Nat → Option EntryPtr × Bool
  | [], _ => (none, trailing)
  | elem :: elems, cluster =>
    match (v.entriesFrom (v.directoryAt cluster)).find? (names elem) with
    | none => (none, !elems.isEmpty || trailing)
    | some p =>
      if v.attr p = Attribute.kDirectory.code ∧ elems ≠ [] then
        resolveBy v names trailing elems (v.firstCluster p)
      else (some p, !elems.isEmpty || trailing)

/-- The 8.3 name of the entry is the one that the element spells, in capital letters. -/
def hasName (v : Volume) (elem : List UInt8) (p : EntryPtr) : Bool :=
  match spelledName elem with
  | none => false
  | some field => (List.range 11).all fun k => v.entryByte p k == field k

/-- The reference: the entry whose 8.3 name is the one that the path spells. -/
def resolve (v : Volume) (trailing : Bool) (elems : List (List UInt8)) (cluster : Nat) :
    Option EntryPtr × Bool := v.resolveBy v.hasName trailing elems cluster

end Volume

/-- The path with the given elements, with a slash before the first and behind the last one or not. -/
def pathOf (leading trailing : Bool) (elems : List (List UInt8)) : List UInt8 :=
  (if leading then [kSlash] else []) ++ [kSlash].intercalate elems ++
    if trailing then [kSlash] else []

/-- An element of a path that `FindFile` has room for. -/
structure PathElement (elem : List UInt8) : Prop where
  ne_nil : elem ≠ []
  length_le : elem.length ≤ 12
  no_slash : kSlash ∉ elem
  no_nul : 0 ∉ elem

instance (elem : List UInt8) : Decidable (PathElement elem) :=
  decidable_of_iff (elem ≠ [] ∧ elem.length ≤ 12 ∧ kSlash ∉ elem ∧ 0 ∉ elem)
    ⟨fun h => ⟨h.1, h.2.1, h.2.2.1, h.2.2.2⟩, fun h => ⟨h.1, h.2, h.3, h.4⟩⟩

/-! ## Path elements -/

variable {elem next : List UInt8} {elems : List (List UInt8)}

theorem nextPathElement_last (h : kSlash ∉ elem) : nextPathElement elem = (elem, none, false) := by
  have hne : ∀ b ∈ elem, (decide (b ≠ kSlash)) = true := fun b hb =>
    decide_eq_true fun hbs => h (hbs ▸ hb)
  unfold nextPathElement
  rw [List.span_eq_takeWhile_dropWhile, List.takeWhile_eq_self_iff.mpr hne,
    List.dropWhile_eq_nil_iff.mpr hne]

theorem nextPathElement_slash (h : kSlash ∉ elem) :
    nextPathElement (elem ++ kSlash :: next) = (elem, some next, true) := by
  have hne : ∀ b ∈ elem, (decide (b ≠ kSlash)) = true := fun b hb =>
    decide_eq_true fun hbs => h (hbs ▸ hb)
  unfold nextPathElement
  rw [List.span_eq_takeWhile_dropWhile, List.takeWhile_append_of_pos hne,
    List.dropWhile_append_of_pos hne]
  simp

namespace Volume

variable {v : Volume} {c d x : Nat} {l : List Nat} {p : EntryPtr}

theorem clustersFrom_eq (h : v.ClusterChain c l) {fuel : Nat} (hfuel : l.length ≤ fuel) :
    v.clustersFrom fuel c = l := by
  obtain ⟨hchain, -⟩ := h
  induction hchain generalizing fuel with
  | last hstop =>
    obtain ⟨fuel, rfl⟩ : ∃ k, fuel = k + 1 := ⟨fuel - 1, by simp at hfuel; omega⟩
    rw [clustersFrom, if_pos hstop]
  | link hnext _ ih =>
    obtain ⟨fuel, rfl⟩ : ∃ k, fuel = k + 1 := ⟨fuel - 1, by simp at hfuel; omega⟩
    rw [clustersFrom, if_neg hnext, ih (by simpa using hfuel)]

theorem entriesFrom_eq (h : v.ClusterChain c l) : v.entriesFrom c = v.entriesOf l := by
  unfold entriesFrom
  rw [clustersFrom_eq h h.length_le]

/-! ## The search of one directory -/

theorem mem_slotsOf : p ∈ v.slotsOf l ↔ p.cluster ∈ l ∧ p.index < v.entriesPerCluster := by
  unfold slotsOf
  rw [List.mem_flatMap]
  constructor
  · rintro ⟨c, hc, hp⟩
    obtain ⟨i, hi, rfl⟩ := List.mem_map.mp hp
    exact ⟨hc, List.mem_range.mp hi⟩
  · rintro ⟨hc, hi⟩
    exact ⟨p.cluster, hc, List.mem_map.mpr ⟨p.index, List.mem_range.mpr hi, rfl⟩⟩

/-- Looking before a mark is looking for the mark as well. -/
theorem find?_takeWhile {α : Type} (mark test : α → Bool) (xs : List α) :
    (xs.takeWhile fun x => !mark x).find? test =
      (xs.find? fun x => mark x || test x).filter fun x => !mark x := by
  induction xs with
  | nil => rfl
  | cons x xs ih =>
    by_cases hmark : mark x
    · simp [hmark, Option.filter]
    · by_cases htest : test x
      · simp [hmark, htest, Option.filter]
      · simpa [hmark, htest] using ih

theorem entriesOf_find? (v : Volume) (l : List Nat) (test : EntryPtr → Bool) :
    (v.entriesOf l).find? test =
      ((v.slotsOf l).find? fun p => v.entryByte p 0 == 0 || test p).filter
        fun p => !(v.entryByte p 0 == 0) := by
  rw [← find?_takeWhile]
  unfold entriesOf
  congr 2
  funext p
  by_cases hz : v.entryByte p 0 = 0 <;> simp [hz]

/-- `FindFile` looks through the entries of a directory in their order. -/
theorem findInDirectory_eq (hmax : v.numFatEntries ≤ kMaxFatEntries) (h : v.ClusterChain c l)
    (elem : List UInt8) {fuel : Nat} (hfuel : l.length < fuel) :
    v.findInDirectory elem fuel c = some ((v.entriesOf l).find? (v.nameIsEqual · elem)) := by
  rw [entriesOf_find?]
  -- the first cluster is searched first
  have hslots : ∀ x l, (v.slotsOf (x :: l)).find? (fun p => v.entryByte p 0 == 0 || v.nameIsEqual p elem) =
      (((List.range v.entriesPerCluster).find? fun i =>
        v.entryByte ⟨x, i⟩ 0 == 0 || v.nameIsEqual ⟨x, i⟩ elem).map (⟨x, ·⟩)).or
        ((v.slotsOf l).find? fun p => v.entryByte p 0 == 0 || v.nameIsEqual p elem) := by
    intro x l
    unfold slotsOf
    rw [List.flatMap_cons, List.find?_append, List.find?_map]
    rfl
  -- the search ends in this cluster
  have hstop : ∀ x i rest, (if v.entryByte ⟨x, i⟩ 0 = 0 then some none else some (some ⟨x, i⟩)) =
      some (((some (⟨x, i⟩ : EntryPtr)).or rest).filter fun p => !(v.entryByte p 0 == 0)) := by
    intro x i rest
    by_cases hz : v.entryByte ⟨x, i⟩ 0 = 0
    · simp [hz, Option.filter]
    · simp [hz, Option.filter]
  induction h using ClusterChain.walk hmax generalizing fuel with
  | last x _ hcluster hend hnext =>
    obtain ⟨fuel, rfl⟩ : ∃ k, fuel = k + 2 := ⟨fuel - 2, by simp at hfuel; omega⟩
    rw [findInDirectory, if_neg hend, if_pos hcluster, hslots]
    cases hfind : (List.range v.entriesPerCluster).find? fun i =>
        v.entryByte ⟨x, i⟩ 0 == 0 || v.nameIsEqual ⟨x, i⟩ elem with
    | some i => exact hstop x i _
    | none =>
      dsimp only
      rw [hnext, Option.bind_some, findInDirectory]
      rfl
  | link x y l _ _ hcluster hend hnext _ ih =>
    obtain ⟨fuel, rfl⟩ : ∃ k, fuel = k + 1 := ⟨fuel - 1, by omega⟩
    rw [findInDirectory, if_neg hend, if_pos hcluster, hslots]
    cases hfind : (List.range v.entriesPerCluster).find? fun i =>
        v.entryByte ⟨x, i⟩ 0 == 0 || v.nameIsEqual ⟨x, i⟩ elem with
    | some i => exact hstop x i _
    | none =>
      dsimp only
      rw [hnext, Option.bind_some, Option.map_none, Option.none_or]
      exact ih (by simpa using hfuel)

/-! ## The walk of `FindFile` -/

/-- What `FindFile` does once it knows in which directory to look. -/
def findElement (v : Volume) (fuel : Nat) (path : List UInt8) (directory : Nat) :
    Option (Option EntryPtr × Bool) :=
  let (elem, nextPath, postSlash) := nextPathElement path
  if 12 < elem.length then none
  else
    (v.findInDirectory elem (v.numFatEntries + 1) directory).bind fun
      | none => some (none, postSlash)
      | some p =>
        match nextPath with
        | some (c :: next) =>
          if v.attr p = Attribute.kDirectory.code then v.findFileFrom fuel (c :: next) (v.firstCluster p)
          else some (some p, postSlash)
        | _ => some (some p, postSlash)

theorem findFileFrom_absolute (v : Volume) (fuel : Nat) (path : List UInt8) (cluster : Nat) :
    v.findFileFrom (fuel + 1) (kSlash :: path) cluster = v.findElement fuel path v.rootCluster := by
  rw [findFileFrom, findElement]
  rfl

theorem findFileFrom_relative {path : List UInt8} (h : path.head? ≠ some kSlash) (fuel cluster : Nat) :
    v.findFileFrom (fuel + 1) path cluster = v.findElement fuel path (v.directoryAt cluster) := by
  rw [findFileFrom, findElement]
  simp only [h, false_or, if_false]
  rfl

/-- The last element of a path, with a slash behind it or not. -/
theorem findElement_last (hmax : v.numFatEntries ≤ kMaxFatEntries) (h : v.ClusterChain c l)
    {elem path : List UInt8} {nextPath : Option (List UInt8)} {postSlash : Bool}
    (hpath : nextPathElement path = (elem, nextPath, postSlash)) (hlen : elem.length ≤ 12)
    (hlast : nextPath = none ∨ nextPath = some []) (fuel : Nat) :
    v.findElement fuel path c =
      some ((v.entriesOf l).find? (v.nameIsEqual · elem), postSlash) := by
  unfold findElement
  rw [hpath]
  dsimp only
  rw [if_neg (by omega), findInDirectory_eq hmax h elem (Nat.lt_succ_of_le h.length_le),
    Option.bind_some]
  cases (v.entriesOf l).find? (v.nameIsEqual · elem) with
  | none => rfl
  | some p => rcases hlast with rfl | rfl <;> rfl

/-- An element with more of the path behind it. -/
theorem findElement_next (hmax : v.numFatEntries ≤ kMaxFatEntries) (h : v.ClusterChain c l)
    {elem path next : List UInt8} (hpath : nextPathElement path = (elem, some next, true))
    (hlen : elem.length ≤ 12) (hnext : next ≠ []) (fuel : Nat) :
    v.findElement fuel path c =
      match (v.entriesOf l).find? (v.nameIsEqual · elem) with
      | none => some (none, true)
      | some p =>
        if v.attr p = Attribute.kDirectory.code then v.findFileFrom fuel next (v.firstCluster p)
        else some (some p, true) := by
  obtain ⟨b, next, rfl⟩ := List.exists_cons_of_ne_nil hnext
  unfold findElement
  rw [hpath]
  dsimp only
  rw [if_neg (by omega), findInDirectory_eq hmax h elem (Nat.lt_succ_of_le h.length_le),
    Option.bind_some]

/-- The directories that a search from `start` may come to. -/
inductive Reached (v : Volume) (start : Nat) : Nat → Prop
  | root : Reached v start v.rootCluster
  | start : Reached v start (v.directoryAt start)
  | sub {c : Nat} {l : List Nat} {p : EntryPtr} (hc : Reached v start c) (hl : v.ClusterChain c l)
      (hp : p ∈ v.entriesOf l) (hattr : v.attr p = Attribute.kDirectory.code) :
      Reached v start (v.directoryAt (v.firstCluster p))

/-- The directory chains do not run in circles, and stay on the volume. -/
def AcyclicDirectories (v : Volume) (start : Nat) : Prop :=
  ∀ c, v.Reached start c → ∃ l, v.ClusterChain c l

end Volume

section

variable {trailing : Bool}

theorem pathOf_false_cons (elem next : List UInt8) (elems : List (List UInt8)) :
    pathOf false trailing (elem :: next :: elems) =
      elem ++ kSlash :: pathOf false trailing (next :: elems) := by
  simp [pathOf, List.intercalate, List.append_assoc]

theorem pathOf_true (elems : List (List UInt8)) :
    pathOf true trailing elems = kSlash :: pathOf false trailing elems := by
  simp [pathOf]

theorem nextPathElement_pathOf (h : kSlash ∉ elem) :
    nextPathElement (pathOf false trailing [elem]) =
      (elem, if trailing then some [] else none, trailing) := by
  cases trailing with
  | false =>
    have heq : pathOf false false [elem] = elem := by simp [pathOf, List.intercalate]
    rw [heq]
    exact nextPathElement_last h
  | true =>
    have heq : pathOf false true [elem] = elem ++ kSlash :: [] := by simp [pathOf, List.intercalate]
    rw [heq]
    exact nextPathElement_slash h

theorem pathOf_head (h : PathElement elem) (elems : List (List UInt8)) :
    (pathOf false trailing (elem :: elems)).head? ≠ some kSlash := by
  obtain ⟨b, elem, rfl⟩ := List.exists_cons_of_ne_nil h.ne_nil
  have hb : b ≠ kSlash := fun he => h.no_slash (he ▸ List.mem_cons_self)
  cases elems with
  | nil => simpa [pathOf, List.intercalate] using hb
  | cons next elems =>
    rw [pathOf_false_cons]
    simpa using hb

variable (trailing) in
theorem length_le_pathOf (elem : List UInt8) (elems : List (List UInt8)) :
    elems.length ≤ (pathOf false trailing (elem :: elems)).length := by
  induction elems generalizing elem with
  | nil => exact Nat.zero_le _
  | cons next elems ih =>
    rw [pathOf_false_cons, List.length_append, List.length_cons, List.length_cons]
    have := ih next
    omega

theorem pathOf_ne_nil (h : PathElement elem) (elems : List (List UInt8)) :
    pathOf false trailing (elem :: elems) ≠ [] := by
  obtain ⟨b, elem, rfl⟩ := List.exists_cons_of_ne_nil h.ne_nil
  cases elems with
  | nil => simp [pathOf, List.intercalate]
  | cons next elems =>
    rw [pathOf_false_cons]
    exact List.cons_ne_nil _ _

end

namespace Volume

variable {v : Volume} {c d x : Nat} {l : List Nat} {p : EntryPtr}

/-- `FindFile` takes the elements of a path one after the other. -/
theorem findElement_pathOf (hmax : v.numFatEntries ≤ kMaxFatEntries) {start : Nat}
    (hdirs : v.AcyclicDirectories start) {trailing : Bool} {fuel cluster : Nat}
    (hcluster : v.Reached start (v.directoryAt cluster))
    (helem : PathElement elem) (helems : ∀ e ∈ elems, PathElement e) (hfuel : elems.length ≤ fuel) :
    v.findElement fuel (pathOf false trailing (elem :: elems)) (v.directoryAt cluster) =
      some (v.resolveBy (fun elem p => v.nameIsEqual p elem) trailing (elem :: elems) cluster) := by
  obtain ⟨l, hl⟩ := hdirs _ hcluster
  induction elems generalizing elem fuel cluster l with
  | nil =>
    rw [findElement_last hmax hl (nextPathElement_pathOf helem.no_slash) helem.length_le
      (by cases trailing <;> simp), resolveBy, entriesFrom_eq hl]
    cases (v.entriesOf l).find? (v.nameIsEqual · elem) with
    | none => rfl
    | some p => simp
  | cons next elems ih =>
    have hnext := helems next List.mem_cons_self
    obtain ⟨fuel, rfl⟩ : ∃ k, fuel = k + 1 := ⟨fuel - 1, by simp at hfuel; omega⟩
    rw [pathOf_false_cons, findElement_next hmax hl (nextPathElement_slash helem.no_slash)
      helem.length_le (pathOf_ne_nil hnext elems), resolveBy, entriesFrom_eq hl]
    cases hfind : (v.entriesOf l).find? (v.nameIsEqual · elem) with
    | none => rfl
    | some p =>
      dsimp only
      by_cases hattr : v.attr p = Attribute.kDirectory.code
      · -- into a directory
        have hsub := hcluster.sub hl (List.mem_of_find?_eq_some hfind) hattr
        obtain ⟨m, hm⟩ := hdirs _ hsub
        rw [if_pos hattr, if_pos ⟨hattr, List.cons_ne_nil _ _⟩,
          findFileFrom_relative (pathOf_head hnext elems)]
        exact ih hsub hnext (fun e he => helems e (List.mem_cons_of_mem _ he))
          (by simpa using hfuel) m hm
      · rw [if_neg hattr, if_neg fun h => hattr h.1]
        rfl

/-- `FindFile` ends, and it finds what the elements of the path lead to. -/
theorem findFile_pathOf (hmax : v.numFatEntries ≤ kMaxFatEntries) (hdirs : v.AcyclicDirectories d)
    (helem : PathElement elem) (helems : ∀ e ∈ elems, PathElement e) (leading trailing : Bool) :
    v.findFile (pathOf leading trailing (elem :: elems)) d =
      some (v.resolveBy (fun elem p => v.nameIsEqual p elem) trailing (elem :: elems)
        (if leading then 0 else d)) := by
  have hfuel := length_le_pathOf trailing elem elems
  unfold findFile
  cases leading with
  | true =>
    rw [pathOf_true, List.length_cons, findFileFrom_absolute]
    exact findElement_pathOf hmax hdirs (show v.Reached d (v.directoryAt 0) from .root) helem helems
      (by omega)
  | false =>
    rw [findFileFrom_relative (pathOf_head helem elems)]
    exact findElement_pathOf hmax hdirs .start helem helems hfuel

/-! ## The comparison of names -/

theorem nameIsEqual_iff : v.nameIsEqual p elem ↔
    ∀ k < 11, v.entryByte p k = fillName83 elem 0 (fun _ => kSpace) k := by
  unfold nameIsEqual
  simp only [List.all_eq_true, List.mem_range, beq_iff_eq]

/-- For the 8.3 spelling of a name `NameIsEqual` is right. -/
theorem hasName_eq (h : IsShortName elem) (p : EntryPtr) : v.hasName elem p = v.nameIsEqual p elem := by
  obtain ⟨hdot, hdots, hspelled⟩ := h
  obtain ⟨field, hfield⟩ := Option.isSome_iff_exists.mp hspelled
  unfold hasName nameIsEqual
  rw [hfield]
  dsimp only
  rw [Bool.eq_iff_iff, List.all_eq_true, List.all_eq_true]
  refine forall₂_congr fun k hk => ?_
  rw [fillName83_spelled hdot hdots hfield (List.mem_range.mp hk)]

theorem resolveBy_congr {names names' : List UInt8 → EntryPtr → Bool} {trailing : Bool} {cluster : Nat}
    (h : ∀ e ∈ elems, names e = names' e) :
    v.resolveBy names trailing elems cluster = v.resolveBy names' trailing elems cluster := by
  induction elems generalizing cluster with
  | nil => rfl
  | cons elem elems ih =>
    rw [resolveBy, resolveBy, h elem List.mem_cons_self]
    cases (v.entriesFrom (v.directoryAt cluster)).find? (names' elem) with
    | none => rfl
    | some p =>
      dsimp only
      split
      · exact ih fun e he => h e (List.mem_cons_of_mem _ he)
      · rfl

end Volume

/-! ## A tree in which every element of a path is found -/

/-- A root directory with a directory for each of the elements, which all lead back to it. -/
def rootVolume (elems : List (List UInt8)) : Volume where
  bytesPerCluster := kEntryBytes * elems.length
  numFatEntries := 3
  rootCluster := 2
  fat := fun _ => kEndOfClusterchain
  data := fun _ k =>
    match elems[k / kEntryBytes]? with
    | none => 0
    | some elem =>
      if k % kEntryBytes < 11 then fillName83 elem 0 (fun _ => kSpace) (k % kEntryBytes)
      else if k % kEntryBytes = 11 then Attribute.kDirectory.code
      else 0

section RootVolume

open Volume

variable {i k : Nat} {p : EntryPtr}

theorem rootVolume_byte (hi : i < elems.length) (hk : k < kEntryBytes) :
    (rootVolume elems).entryByte ⟨2, i⟩ k =
      if k < 11 then fillName83 elems[i] 0 (fun _ => kSpace) k
      else if k = 11 then Attribute.kDirectory.code else 0 := by
  change k < 32 at hk
  have hdiv : ((⟨2, i⟩ : EntryPtr).offset + k) / kEntryBytes = i := by
    change (32 * i + k) / 32 = i
    omega
  have hmod : ((⟨2, i⟩ : EntryPtr).offset + k) % kEntryBytes = k := by
    change (32 * i + k) % 32 = k
    omega
  unfold entryByte rootVolume
  dsimp only
  rw [hdiv, hmod, List.getElem?_eq_getElem hi]

theorem rootVolume_chain (elems : List (List UInt8)) : (rootVolume elems).ClusterChain 2 [2] :=
  ⟨.last rfl, fun x hx => by
    obtain rfl := List.mem_singleton.mp hx
    exact ⟨⟨le_rfl, Nat.lt_succ_self 2⟩, (by decide : kEndOfClusterchain ≠ 0)⟩⟩

theorem rootVolume_mem (hp : p ∈ (rootVolume elems).entriesOf [2]) :
    ∃ i, i < elems.length ∧ p = ⟨2, i⟩ := by
  obtain ⟨hc, hi⟩ := mem_slotsOf.mp ((List.takeWhile_prefix _).subset hp)
  refine ⟨p.index, ?_, ?_⟩
  · unfold entriesPerCluster rootVolume at hi
    rwa [Nat.mul_div_cancel_left _ (by decide)] at hi
  · obtain ⟨c, i⟩ := p
    exact congrArg (EntryPtr.mk · i) (List.mem_singleton.mp hc)

/-- Every entry is a directory that leads back to the root directory. -/
theorem rootVolume_directory (hi : i < elems.length) :
    (rootVolume elems).attr ⟨2, i⟩ = Attribute.kDirectory.code ∧
      (rootVolume elems).firstCluster ⟨2, i⟩ = 0 := by
  have hbyte : ∀ k, 12 ≤ k → k < kEntryBytes →
      (rootVolume elems).data 2 ((⟨2, i⟩ : EntryPtr).offset + k) = 0 := by
    intro k hlo hhi
    have h := rootVolume_byte hi hhi
    rwa [if_neg (by omega), if_neg (by omega)] at h
  constructor
  · have h := rootVolume_byte hi (k := 11) (by decide)
    rwa [if_neg (by decide), if_pos rfl] at h
  · simp only [firstCluster, readLE, Nat.add_assoc, hbyte 26 (by decide) (by decide),
      hbyte 27 (by decide) (by decide), hbyte 20 (by decide) (by decide),
      hbyte 21 (by decide) (by decide)]
    rfl

/-- All of its entries are in use, since no element has a NUL. -/
theorem rootVolume_find? (hnul : ∀ e ∈ elems, 0 ∉ e) {elem : List UInt8} (helem : elem ∈ elems) :
    ∃ i, i < elems.length ∧ ((rootVolume elems).entriesOf [2]).find?
      ((rootVolume elems).nameIsEqual · elem) = some ⟨2, i⟩ := by
  obtain ⟨i, hi, rfl⟩ := List.mem_iff_getElem.mp helem
  have hall : (rootVolume elems).entriesOf [2] = (rootVolume elems).slotsOf [2] := by
    apply List.takeWhile_eq_self_iff.mpr
    intro p hp
    obtain ⟨hc, hj⟩ := mem_slotsOf.mp hp
    obtain ⟨c, j⟩ := p
    obtain rfl : c = 2 := List.mem_singleton.mp hc
    have hj' : j < elems.length := by
      unfold entriesPerCluster rootVolume at hj
      rwa [Nat.mul_div_cancel_left _ (by decide)] at hj
    rw [decide_eq_true_eq, rootVolume_byte hj' (by decide), if_pos (by decide)]
    exact fillName83_ne_zero (hnul _ (List.getElem_mem hj')) (by decide)
  have hmem : (⟨2, i⟩ : EntryPtr) ∈ (rootVolume elems).entriesOf [2] := by
    rw [hall]
    refine mem_slotsOf.mpr ⟨List.mem_singleton_self 2, ?_⟩
    unfold entriesPerCluster rootVolume
    rwa [Nat.mul_div_cancel_left _ (by decide)]
  have hequal : (rootVolume elems).nameIsEqual ⟨2, i⟩ elems[i] := by
    rw [nameIsEqual_iff]
    intro k hk
    rw [rootVolume_byte hi (by unfold kEntryBytes; omega), if_pos hk]
  cases hfind : ((rootVolume elems).entriesOf [2]).find?
      ((rootVolume elems).nameIsEqual · elems[i]) with
  | none => exact absurd hequal (List.find?_eq_none.mp hfind _ hmem)
  | some p =>
    obtain ⟨j, hj, rfl⟩ := rootVolume_mem (List.mem_of_find?_eq_some hfind)
    exact ⟨j, hj, rfl⟩

theorem rootVolume_acyclic (elems : List (List UInt8)) : (rootVolume elems).AcyclicDirectories 0 := by
  intro c hc
  have hroot : c = 2 := by
    induction hc with
    | root => rfl
    | start => rfl
    | sub _ hl hp _ ih =>
      subst ih
      rw [hl.unique (rootVolume_chain elems)] at hp
      obtain ⟨i, hi, rfl⟩ := rootVolume_mem hp
      rw [(rootVolume_directory hi).2]
      rfl
  exact hroot ▸ ⟨[2], rootVolume_chain elems⟩

/-- A search for elements that are all there. -/
theorem rootVolume_found (hnul : ∀ e ∈ elems, 0 ∉ e) (trailing : Bool) {es : List (List UInt8)}
    (hes : es ⊆ elems) (hne : es ≠ []) :
    ((rootVolume elems).resolveBy (fun elem p => (rootVolume elems).nameIsEqual p elem) trailing es
      0).1 ≠ none := by
  induction es with
  | nil => exact absurd rfl hne
  | cons e es ih =>
    obtain ⟨i, hi, hfind⟩ := rootVolume_find? hnul (hes List.mem_cons_self)
    rw [resolveBy, show (rootVolume elems).directoryAt 0 = 2 from rfl,
      entriesFrom_eq (rootVolume_chain elems), hfind]
    dsimp only
    split
    · rename_i hmore
      rw [(rootVolume_directory hi).2]
      exact ih (fun x hx => hes (List.mem_cons_of_mem e hx)) hmore.2
    · exact Option.some_ne_none _

/-- A search for elements one of which is the name of no entry. -/
theorem rootVolume_notFound {names : List UInt8 → EntryPtr → Bool} {trailing : Bool}
    {es : List (List UInt8)} (h : ∃ e ∈ es, ∀ p ∈ (rootVolume elems).entriesOf [2], names e p = false) :
    ((rootVolume elems).resolveBy names trailing es 0).1 = none := by
  induction es with
  | nil =>
    obtain ⟨e, he, -⟩ := h
    cases he
  | cons e es ih =>
    rw [resolveBy, show (rootVolume elems).directoryAt 0 = 2 from rfl,
      entriesFrom_eq (rootVolume_chain elems)]
    cases hfind : ((rootVolume elems).entriesOf [2]).find? (names e) with
    | none => rfl
    | some p =>
      have hp := List.mem_of_find?_eq_some hfind
      obtain ⟨e', he', hnone⟩ := h
      -- the element without an entry is still to come
      have hmem : e' ∈ es := by
        rcases List.mem_cons.mp he' with rfl | hmem
        · exact absurd (List.find?_some hfind) (by rw [hnone p hp]; decide)
        · exact hmem
      obtain ⟨i, hi, rfl⟩ := rootVolume_mem hp
      dsimp only
      rw [if_pos ⟨(rootVolume_directory hi).1, List.ne_nil_of_mem hmem⟩, (rootVolume_directory hi).2]
      exact ih ⟨e', hmem, hnone⟩

/-- An element that is not in the 8.3 form names none of these entries. -/
theorem rootVolume_hasName {elem : List UInt8} (h : ¬ IsShortName elem)
    (hp : p ∈ (rootVolume elems).entriesOf [2]) : (rootVolume elems).hasName elem p = false := by
  obtain ⟨i, hi, rfl⟩ := rootVolume_mem hp
  have hbyte := rootVolume_byte hi (k := 0) (by decide)
  rw [if_pos (by decide)] at hbyte
  have hfirst : (rootVolume elems).entryByte ⟨2, i⟩ 0 ≠ kDot := by
    rw [hbyte]
    exact fillName83_ne_dot _ (by decide)
  unfold hasName
  cases hspelled : spelledName elem with
  | none => rfl
  | some field =>
    by_cases hdots : elem = [kDot] ∨ elem = [kDot, kDot]
    · -- "." and ".." are the names of no entry here
      rw [spelledName, if_pos hdots] at hspelled
      have hfield : field 0 = kDot := by
        rw [← Option.some.inj hspelled]
        rcases hdots with rfl | rfl <;> rfl
      apply Bool.eq_false_iff.mpr
      intro hall
      have hzero := List.all_eq_true.mp hall 0 (by decide)
      exact hfirst ((beq_iff_eq.mp hzero).trans hfield)
    · exact absurd ⟨fun he => hdots (.inl he), fun he => hdots (.inr he), by rw [hspelled]; rfl⟩ h

end RootVolume

end MikanSaos
