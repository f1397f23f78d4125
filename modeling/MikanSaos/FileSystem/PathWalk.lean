import MikanSaos.FileSystem.RepeatedSlashes

/-!
# PathWalk — the directories that `FindFile` looks in

A call that finds a directory has looked up the elements of its path one after the other.  The same lookups
are made for a longer path, and on a volume where these directories hold the same entries.
-/

open Reasoning

namespace MikanSaos

/-- The path behind a slash at its start. -/
def afterSlash (path : List UInt8) : List UInt8 := if path.head? = some kSlash then path.tail else path

variable {path next filename : List UInt8}

theorem afterSlash_append (hne : path ≠ []) (next : List UInt8) :
    afterSlash (path ++ next) = afterSlash path ++ next := by
  obtain ⟨c, path, rfl⟩ := List.exists_cons_of_ne_nil hne
  unfold afterSlash
  rw [List.cons_append, List.head?_cons, List.head?_cons]
  split <;> rfl

theorem afterSlash_getLast? (hslash : path ≠ [kSlash]) : (afterSlash path).getLast? = path.getLast? := by
  unfold afterSlash
  split
  · rename_i hhead
    cases path with
    | nil => rfl
    | cons c path =>
      cases path with
      | nil => exact absurd (congrArg ([·]) (Option.some.inj hhead)) hslash
      | cons d path => rfl
  · rfl

theorem repeatsSlash_afterSlash (h : ¬ RepeatsSlash path) : ¬ RepeatsSlash (afterSlash path) := by
  unfold afterSlash
  split
  · cases path with
    | nil => exact h
    | cons c path => exact (not_or.mp h).2
  · exact h

theorem namesDeleted_afterSlash (h : ¬ NamesDeleted path) : ¬ NamesDeleted (afterSlash path) := by
  unfold afterSlash
  split
  · rename_i habs
    cases path with
    | nil => exact h
    | cons c path =>
      obtain rfl : c = kSlash := Option.some.inj habs
      exact fun hd => h (hd.append [])
  · exact h

theorem length_afterSlash_le (path : List UInt8) : (afterSlash path).length ≤ path.length := by
  unfold afterSlash
  split
  · rw [List.length_tail]
    exact Nat.sub_le _ _
  · exact le_rfl

theorem nextPathElement_some {elem : List UInt8} {b : Bool}
    (h : nextPathElement path = (elem, some next, b)) :
    kSlash ∉ elem ∧ path = elem ++ kSlash :: next := by
  obtain ⟨-, hsplit⟩ | ⟨elem', next', helem, hpath, hsplit⟩ := nextPathElement_cases path
  · cases hsplit.symm.trans h
  · cases hsplit.symm.trans h
    exact ⟨helem, hpath⟩

theorem nextPathElement_none {elem : List UInt8} {b : Bool}
    (h : nextPathElement path = (elem, none, b)) : kSlash ∉ path ∧ path = elem := by
  obtain ⟨hpath, hsplit⟩ | ⟨elem', next', -, -, hsplit⟩ := nextPathElement_cases path
  · cases hsplit.symm.trans h
    exact ⟨hpath, rfl⟩
  · cases hsplit.symm.trans h

/-- An element of a path without deleted names. -/
theorem head_nextPathElement (hpath : ¬ NamesDeleted path) {elem : List UInt8}
    {nextPath : Option (List UInt8)} {b : Bool} (h : nextPathElement path = (elem, nextPath, b)) :
    elem.head? ≠ some kDeleted := by
  have hpre := nextPathElement_isPrefix path
  rw [h] at hpre
  exact fun hhead => hpath (NamesDeleted.of_prefix (.inl hhead) hpre)

namespace Volume

variable {v v' : Volume} {dir : Nat → Prop} {q r : EntryPtr} {o : Option EntryPtr} {directory fuel : Nat} {ds l : List Nat}
  {elem : List UInt8} {b : Bool}

/-- The directory that a call of `FindFile` looks in. -/
def directoryFor (v : Volume) (path : List UInt8) (cluster : Nat) : Nat :=
  if path.head? = some kSlash ∨ cluster = 0 then v.rootCluster else cluster

theorem findFileFrom_succ (v : Volume) (fuel : Nat) (path : List UInt8) (cluster : Nat) :
    v.findFileFrom (fuel + 1) path cluster =
      v.findElement fuel (afterSlash path) (v.directoryFor path cluster) := by
  rw [findFileFrom, findElement]
  rfl

/-- The element fits the buffer, and the directory has an entry for it. -/
structure Finds (v : Volume) (elem : List UInt8) (directory : Nat) (r : EntryPtr) : Prop where
  length_le : elem.length ≤ 12
  found : v.findInDirectory elem (v.numFatEntries + 1) directory = some (some r)

/-- The elements of the path lead from the directory to the entry `q`; `ds` are the directories that are
looked in. -/
inductive Walk (v : Volume) (q : EntryPtr) : List UInt8 → Nat → List Nat → Prop
  | last {path elem : List UInt8} {nextPath : Option (List UInt8)} {directory : Nat} {b : Bool}
      (hsplit : nextPathElement path = (elem, nextPath, b))
      (hend : nextPath = none ∨ nextPath = some []) (hfind : v.Finds elem directory q) :
      Walk v q path directory [directory]
  | next {path elem next : List UInt8} {r : EntryPtr} {directory : Nat} {ds : List Nat} {b : Bool}
      (hsplit : nextPathElement path = (elem, some next, b)) (hne : next ≠ [])
      (hfind : v.Finds elem directory r) (hattr : v.attr r = Attribute.kDirectory.code)
      (hrest : Walk v q (afterSlash next) (v.directoryFor next (v.firstCluster r)) ds) :
      Walk v q path directory (directory :: ds)

theorem walk_of_findFileFrom (hattr : v.attr q = Attribute.kDirectory.code) {cluster : Nat}
    (h : v.findFileFrom fuel path cluster = some (some q, b)) :
    ∃ ds, v.Walk q (afterSlash path) (v.directoryFor path cluster) ds := by
  induction fuel generalizing path cluster with
  | zero => cases h
  | succ fuel ih =>
    rw [findFileFrom_succ, findElement] at h
    obtain ⟨elem, nextPath, b', hsplit⟩ : ∃ elem nextPath b',
      nextPathElement (afterSlash path) = (elem, nextPath, b') := ⟨_, _, _, rfl⟩
    rw [hsplit] at h
    dsimp only at h
    split at h
    · cases h
    · rename_i hlen
      obtain ⟨found, hfind, h⟩ := Option.bind_eq_some_iff.mp h
      cases found with
      | none => cases h
      | some r =>
        have hfinds : v.Finds elem (v.directoryFor path cluster) r := ⟨Nat.le_of_not_lt hlen, hfind⟩
        cases nextPath with
        | none =>
          cases h
          exact ⟨_, .last hsplit (.inl rfl) hfinds⟩
        | some next =>
          cases next with
          | nil =>
            cases h
            exact ⟨_, .last hsplit (.inr rfl) hfinds⟩
          | cons c next =>
            dsimp only at h
            split at h
            · -- a directory on the way
              rename_i hdir
              obtain ⟨ds, hrest⟩ := ih h
              exact ⟨_, .next hsplit (List.cons_ne_nil c next) hfinds hdir hrest⟩
            · rename_i hdir
              cases h
              exact absurd hattr hdir

/-- A directory that is found is gone into. -/
theorem Finds.findElement (h : v.Finds elem directory r) (hattr : v.attr r = Attribute.kDirectory.code)
    (helem : kSlash ∉ elem) (hne : next ≠ []) (fuel : Nat) :
    v.findElement fuel (elem ++ kSlash :: next) directory =
      v.findFileFrom fuel next (v.firstCluster r) := by
  obtain ⟨c, next, rfl⟩ := List.exists_cons_of_ne_nil hne
  unfold Volume.findElement
  rw [nextPathElement_slash helem]
  dsimp only
  rw [if_neg (Nat.not_lt.mpr h.length_le), h.found, Option.bind_some]
  exact if_pos hattr

/-- What follows the path behind one more slash is looked up in the directory that the path leads to; a slash
at the end of the path is taken for the start of an absolute one. -/
theorem Walk.findElement (h : v.Walk q path directory ds) (hattr : v.attr q = Attribute.kDirectory.code)
    (hname : filename ≠ []) (hend : path.getLast? = some kSlash → ¬ RepeatsSlash path)
    (hfuel : path.length < fuel) :
    ∃ m, v.findElement fuel (path ++ kSlash :: filename) directory =
      v.findFileFrom (m + 1) (if path.getLast? = some kSlash then kSlash :: filename else filename)
        (v.firstCluster q) := by
  induction h generalizing fuel with
  | @last path elem nextPath directory b hsplit hlast hfind =>
    obtain ⟨m, rfl⟩ : ∃ m, fuel = m + 1 := ⟨fuel - 1, by omega⟩
    refine ⟨m, ?_⟩
    rcases hlast with rfl | rfl
    · -- the path ends with the name of the directory
      obtain ⟨hslash, rfl⟩ := nextPathElement_none hsplit
      rw [if_neg fun hlast => hslash (List.mem_of_getLast? hlast)]
      exact hfind.findElement hattr hslash hname (m + 1)
    · -- it ends with a slash, and the next one comes to stand at the start of the rest
      obtain ⟨helem, rfl⟩ := nextPathElement_some hsplit
      rw [if_pos List.getLast?_concat, List.append_assoc]
      exact hfind.findElement hattr helem (List.cons_ne_nil _ _) (m + 1)
  | @next path elem next r directory ds b hsplit hne hfind hdir hrest ih =>
    obtain ⟨helem, rfl⟩ := nextPathElement_some hsplit
    rw [List.length_append, List.length_cons] at hfuel
    have hlast : (elem ++ kSlash :: next).getLast? = next.getLast? := by
      obtain ⟨c, next, rfl⟩ := List.exists_cons_of_ne_nil hne
      rw [List.getLast?_append, List.getLast?_cons_cons, List.getLast?_cons]
      rfl
    rw [hlast, repeatsSlash_append helem] at hend
    have hslash : next ≠ [kSlash] := by
      rintro rfl
      exact hend rfl (.inl rfl)
    obtain ⟨f, rfl⟩ : ∃ f, fuel = f + 1 := ⟨fuel - 1, by omega⟩
    have hlen := length_afterSlash_le next
    -- what is appended does not change where the rest of the path starts
    have hdirectory : v.directoryFor (next ++ kSlash :: filename) (v.firstCluster r) =
        v.directoryFor next (v.firstCluster r) := by
      obtain ⟨c, next, rfl⟩ := List.exists_cons_of_ne_nil hne
      rfl
    -- one directory further in
    rw [List.append_assoc, List.cons_append,
      hfind.findElement hdir helem (List.append_ne_nil_of_left_ne_nil hne _), findFileFrom_succ,
      afterSlash_append hne, hdirectory, hlast, ← afterSlash_getLast? hslash]
    refine ih (fun he => ?_) (by omega)
    rw [afterSlash_getLast? hslash] at he
    exact repeatsSlash_afterSlash fun hruns => hend he (.inr hruns)

/-- The lookups on the way are all that matters. -/
theorem Walk.keep (h : v.Walk q path directory ds) (hroot : v'.rootCluster = v.rootCluster)
    (hpath : ¬ NamesDeleted path)
    (hkeep : ∀ d ∈ ds, ∀ elem r, elem.head? ≠ some kDeleted → v.Finds elem d r →
      v'.Finds elem d r ∧ v'.attr r = v.attr r ∧ v'.firstCluster r = v.firstCluster r) :
    v'.Walk q path directory ds ∧ v'.attr q = v.attr q ∧ v'.firstCluster q = v.firstCluster q := by
  induction h with
  | @last path elem nextPath directory b hsplit hlast hfind =>
    obtain ⟨hfind', hattr, hfirst⟩ := hkeep directory (List.mem_singleton_self _) elem q
      (head_nextPathElement hpath hsplit) hfind
    exact ⟨.last hsplit hlast hfind', hattr, hfirst⟩
  | @next path elem next r directory ds b hsplit hne hfind hdir hrest ih =>
    obtain ⟨hfind', hattr, hfirst⟩ := hkeep directory List.mem_cons_self elem r
      (head_nextPathElement hpath hsplit) hfind
    have hnext : ¬ NamesDeleted (afterSlash next) := by
      apply namesDeleted_afterSlash
      rw [(nextPathElement_some hsplit).2] at hpath
      exact fun hd => hpath (hd.append elem)
    obtain ⟨hrest', hkept⟩ := ih hnext fun d hd => hkeep d (List.mem_cons_of_mem _ hd)
    -- the root directory or the one that was found, on both volumes
    have hdirectory : v'.directoryFor next (v'.firstCluster r) = v.directoryFor next (v.firstCluster r) := by
      unfold directoryFor
      rw [hroot, hfirst]
    rw [← hdirectory] at hrest'
    exact ⟨.next hsplit hne hfind' (hattr.trans hdir) hrest', hkept⟩

/-! ## The directories of a well-formed volume -/

theorem finds_iff (hmax : v.numFatEntries ≤ kMaxFatEntries) (hl : v.ClusterChain directory l) :
    v.Finds elem directory r ↔
      elem.length ≤ 12 ∧ (v.entriesOf l).find? (v.nameIsEqual · elem) = some r := by
  have hfind := findInDirectory_eq hmax hl elem (Nat.lt_succ_of_le hl.length_le)
  constructor
  · exact fun h => ⟨h.length_le, Option.some.inj (hfind.symm.trans h.found)⟩
  · exact fun h => ⟨h.1, hfind.trans (congrArg some h.2)⟩

/-- A directory that belongs to the root directory or to an entry. -/
def IsDirectory (v : Volume) (dir : Nat → Prop) (o : Option EntryPtr) (c : Nat) : Prop :=
  v.Owns dir o c ∧ v.OwnsDirectory o

theorem Finds.named (h : v.Layout dir) (ho : v.IsDirectory dir o directory)
    (helem : elem.head? ≠ some kDeleted) (hfind : v.Finds elem directory r) : v.Named dir r := by
  obtain ⟨l, hl⟩ := h.exists_chain ho.1
  exact findInDirectory_named h.searches (h.closed _ _ _ _ ho.1 ho.2 hl hl.chain.head_mem) helem
    hfind.found

theorem isDirectory_root : v.IsDirectory dir none v.rootCluster := ⟨rfl, trivial⟩

/-- Only directories are looked in. -/
theorem Walk.owned (h : v.Layout dir) (hwalk : v.Walk q path directory ds) (hpath : ¬ NamesDeleted path)
    (ho : v.IsDirectory dir o directory) :
    (∀ d ∈ ds, ∃ o', v.IsDirectory dir o' d) ∧ v.Named dir q := by
  induction hwalk generalizing o with
  | @last path elem nextPath directory b hsplit hlast hfind =>
    refine ⟨fun d hd => ⟨o, ?_⟩, hfind.named h ho (head_nextPathElement hpath hsplit)⟩
    rw [List.mem_singleton.mp hd]
    exact ho
  | @next path elem next r directory ds b hsplit hne hfind hdir hrest ih =>
    have hr := hfind.named h ho (head_nextPathElement hpath hsplit)
    have hnext : ¬ NamesDeleted (afterSlash next) := by
      apply namesDeleted_afterSlash
      rw [(nextPathElement_some hsplit).2] at hpath
      exact fun hd => hpath (hd.append elem)
    -- a slash or a first cluster of 0 leads back to the root directory
    obtain ⟨o', ho'⟩ : ∃ o', v.IsDirectory dir o' (v.directoryFor next (v.firstCluster r)) := by
      unfold directoryFor
      split
      · exact ⟨none, isDirectory_root⟩
      · rename_i hfirst
        exact ⟨some r, hr.owns hdir fun hz => hfirst (.inr hz), hdir⟩
    obtain ⟨hall, hq⟩ := ih hnext ho'
    refine ⟨fun d hd => ?_, hq⟩
    rcases List.mem_cons.mp hd with rfl | hd
    · exact ⟨o, ho⟩
    · exact hall d hd

/-- The number of directories that an owner is nested in. -/
inductive Nested (v : Volume) (dir : Nat → Prop) : Nat → Option EntryPtr → Prop
  | root : Nested v dir 0 none
  | sub {n c : Nat} {o : Option EntryPtr} {l : List Nat} {r : EntryPtr} (ho : Nested v dir n o)
      (hc : v.Owns dir o c) (hl : v.ClusterChain c l) (hr : r.cluster ∈ l) : Nested v dir (n + 1) (some r)

/-- No directory is nested in itself, since no cluster is in the chains of two directories. -/
theorem Nested.unique (h : v.Layout dir) {n m : Nat} (hn : v.Nested dir n o) (hm : v.Nested dir m o) :
    n = m := by
  induction hn generalizing m with
  | root =>
    cases hm
    rfl
  | @sub n c o l r ho hc hl hr ih =>
    obtain - | ⟨ho', hc', hl', hr'⟩ := hm
    rename_i m c' o' l'
    have hsame : o = o' := by
      by_contra hne
      exact h.family.disjoint _ _ _ _ _ _ hc hc' hne hl.chain hl'.chain hr hr'
    subst hsame
    rw [ih ho']

/-- Where directories have clusters and no two slashes stand side by side, every element leads one directory
further in. -/
theorem Walk.nested (h : v.Layout dir) (hwalk : v.Walk q path directory ds) (hpath : ¬ NamesDeleted path)
    (hruns : ¬ RepeatsSlash path)
    (hdirs : ∀ r, v.Named dir r → v.attr r = Attribute.kDirectory.code → v.firstCluster r ≠ 0)
    (ho : v.IsDirectory dir o directory) {n : Nat} (hn : v.Nested dir n o) :
    ∃ m, n < m ∧ v.Nested dir m (some q) ∧
      ∀ d ∈ ds, ∃ k o', k < m ∧ v.Nested dir k o' ∧ v.IsDirectory dir o' d := by
  have hsub : ∀ {elem r directory n o}, v.IsDirectory dir o directory → v.Nested dir n o →
      v.Finds elem directory r → v.Nested dir (n + 1) (some r) := by
    intro elem r directory n o ho hn hfind
    obtain ⟨l, hl⟩ := h.exists_chain ho.1
    have hmem := List.mem_of_find?_eq_some ((finds_iff h.formatted.numFatEntries hl).mp hfind).2
    exact .sub hn ho.1 hl (mem_slotsOf.mp ((List.takeWhile_prefix _).subset hmem)).1
  induction hwalk generalizing n o with
  | @last path elem nextPath directory b hsplit hlast hfind =>
    refine ⟨n + 1, Nat.lt_succ_self n, hsub ho hn hfind, fun d hd => ⟨n, o, Nat.lt_succ_self n, hn, ?_⟩⟩
    rw [List.mem_singleton.mp hd]
    exact ho
  | @next path elem next r directory ds b hsplit hne hfind hdir hrest ih =>
    have hr := hfind.named h ho (head_nextPathElement hpath hsplit)
    obtain ⟨helem, rfl⟩ := nextPathElement_some hsplit
    obtain ⟨hhead, hruns'⟩ := not_or.mp ((repeatsSlash_append helem).not.mp hruns)
    -- neither a slash nor a first cluster of 0 leads back to the root directory
    have hfirst := hdirs r hr hdir
    have hdirectory : v.directoryFor next (v.firstCluster r) = v.firstCluster r :=
      if_neg fun he => he.elim hhead hfirst
    have hafter : afterSlash next = next := if_neg hhead
    rw [hdirectory, hafter] at ih
    obtain ⟨m, hlt, hq, hall⟩ := ih (fun hd => hpath (hd.append elem)) hruns' ⟨hr.owns hdir hfirst, hdir⟩
      (hsub ho hn hfind)
    refine ⟨m, by omega, hq, fun d hd => ?_⟩
    rcases List.mem_cons.mp hd with rfl | hd
    · exact ⟨n, o, by omega, hn, ho⟩
    · exact hall d hd

end Volume

end MikanSaos
