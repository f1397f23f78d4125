import MikanSaos.FileSystem.PathBuffers

/-!
# RepeatedSlashes — two slashes in a row send `FindFile` back to the root directory

The rest of a path behind its first slash is looked up by a call of its own.  Where another slash
follows, that call starts with it, and takes it for the start of an absolute path.
-/

open Reasoning

namespace MikanSaos

/-- The path with one slash for every run of slashes. -/
def collapseSlashes : List UInt8 → List UInt8
  | [] => []
  | c :: path =>
    if c = kSlash ∧ path.head? = some kSlash then collapseSlashes path else c :: collapseSlashes path

/-- Two slashes stand side by side. -/
def RepeatsSlash : List UInt8 → Prop
  | [] => False
  | c :: path => c = kSlash ∧ path.head? = some kSlash ∨ RepeatsSlash path

/-- The names in a path: its elements that are not empty. -/
def namesOf (path : List UInt8) : List (List UInt8) := (path.splitOn kSlash).filter (· ≠ [])

variable {path elem next : List UInt8} {elems : List (List UInt8)}

theorem repeatsSlash_iff : RepeatsSlash path ↔ [kSlash, kSlash] <:+: path := by
  induction path with
  | nil => simp [RepeatsSlash]
  | cons c path ih =>
    rw [RepeatsSlash, List.infix_cons_iff, ih]
    cases path with
    | nil => simp
    | cons d path => simp [List.cons_prefix_cons, eq_comm]

theorem collapseSlashes_eq (h : ¬ RepeatsSlash path) : collapseSlashes path = path := by
  induction path with
  | nil => rfl
  | cons c path ih =>
    obtain ⟨hc, hpath⟩ := not_or.mp h
    rw [collapseSlashes, if_neg hc, ih hpath]

theorem collapseSlashes_head? (path : List UInt8) : (collapseSlashes path).head? = path.head? := by
  induction path with
  | nil => rfl
  | cons c path ih =>
    rw [collapseSlashes]
    split
    · rename_i h
      rw [ih, h.2, h.1]
      rfl
    · rfl

theorem not_repeatsSlash_collapseSlashes (path : List UInt8) :
    ¬ RepeatsSlash (collapseSlashes path) := by
  induction path with
  | nil => exact id
  | cons c path ih =>
    rw [collapseSlashes]
    split
    · exact ih
    · rename_i h
      rw [RepeatsSlash, collapseSlashes_head?]
      exact not_or.mpr ⟨h, ih⟩

/-- Behind an element a run starts with the next slash, or later. -/
theorem repeatsSlash_append (h : kSlash ∉ elem) :
    RepeatsSlash (elem ++ kSlash :: next) ↔ next.head? = some kSlash ∨ RepeatsSlash next := by
  induction elem with
  | nil => simp [RepeatsSlash]
  | cons c elem ih =>
    obtain ⟨hc, helem⟩ := List.ne_and_not_mem_of_not_mem_cons h
    rw [List.cons_append, RepeatsSlash, ih helem]
    simp [hc.symm]

theorem not_repeatsSlash (h : kSlash ∉ path) : ¬ RepeatsSlash path := by
  induction path with
  | nil => exact id
  | cons c path ih =>
    obtain ⟨hc, hpath⟩ := List.ne_and_not_mem_of_not_mem_cons h
    exact not_or.mpr ⟨fun he => hc he.1.symm, ih hpath⟩

/-! ## The names in a path -/

theorem namesOf_slash (path : List UInt8) : namesOf (kSlash :: path) = namesOf path := by
  unfold namesOf
  rw [splitOn_slash, List.filter_cons_of_neg (by simp)]

theorem namesOf_append (h : kSlash ∉ elem) (hne : elem ≠ []) :
    namesOf (elem ++ kSlash :: next) = elem :: namesOf next := by
  unfold namesOf
  rw [List.splitOn_append_cons_self_of_not_mem h, List.filter_cons_of_pos (by simpa using hne)]

theorem namesOf_last (h : kSlash ∉ elem) (hne : elem ≠ []) : namesOf elem = [elem] := by
  unfold namesOf
  rw [List.splitOn_eq_singleton h, List.filter_cons_of_pos (by simpa using hne), List.filter_nil]

theorem namesOf_ne_nil (hne : path ≠ []) (hhead : path.head? ≠ some kSlash) : namesOf path ≠ [] := by
  obtain ⟨helem, -⟩ | ⟨elem, next, helem, rfl, -⟩ := nextPathElement_cases path
  · rw [namesOf_last helem hne]
    exact List.cons_ne_nil _ _
  · have helem' : elem ≠ [] := by
      rintro rfl
      exact hhead rfl
    rw [namesOf_append helem helem']
    exact List.cons_ne_nil _ _

/-- Collapsing leaves the first element and the names. -/
theorem splitOn_collapseSlashes (path : List UInt8) : ∃ first rest rest',
    path.splitOn kSlash = first :: rest ∧ (collapseSlashes path).splitOn kSlash = first :: rest' ∧
      rest.filter (· ≠ []) = rest'.filter (· ≠ []) := by
  induction path with
  | nil => exact ⟨[], [], [], rfl, rfl, rfl⟩
  | cons c path ih =>
    obtain ⟨first, rest, rest', hsplit, hsplit', hrest⟩ := ih
    rw [collapseSlashes]
    by_cases hc : c = kSlash
    · subst hc
      by_cases hhead : path.head? = some kSlash
      · -- the first of several slashes
        obtain ⟨tail, rfl⟩ : ∃ tail, path = kSlash :: tail := by
          cases path with
          | nil => cases hhead
          | cons d tail => exact ⟨tail, by rw [Option.some.inj hhead]⟩
        have hfirst : first = [] := by
          rw [splitOn_slash] at hsplit
          exact (List.cons.inj hsplit).1.symm
        subst hfirst
        rw [if_pos ⟨rfl, hhead⟩]
        refine ⟨[], [] :: rest, rest', ?_, hsplit', ?_⟩
        · rw [splitOn_slash (kSlash :: tail), hsplit]
        · rw [List.filter_cons_of_neg (by simp), hrest]
      · rw [if_neg fun h => hhead h.2]
        refine ⟨[], first :: rest, first :: rest', ?_, ?_, ?_⟩
        · rw [splitOn_slash, hsplit]
        · rw [splitOn_slash, hsplit']
        · rw [List.filter_cons, List.filter_cons, hrest]
    · rw [if_neg fun h => hc h.1]
      refine ⟨c :: first, rest, rest', ?_, ?_, hrest⟩
      · rw [List.splitOn_cons_eq_if_modifyHead, if_neg (by simpa using hc), hsplit]
        rfl
      · rw [List.splitOn_cons_eq_if_modifyHead, if_neg (by simpa using hc), hsplit']
        rfl

theorem namesOf_collapseSlashes (path : List UInt8) : namesOf (collapseSlashes path) = namesOf path := by
  obtain ⟨first, rest, rest', hsplit, hsplit', hrest⟩ := splitOn_collapseSlashes path
  unfold namesOf
  rw [hsplit, hsplit', List.filter_cons, List.filter_cons, hrest]

/-! ## A tree with one directory in another -/

/-- Every entry is a directory of this name. -/
def namedVolume (name : List UInt8) : Volume where
  bytesPerCluster := kEntryBytes
  numFatEntries := 3
  rootCluster := 2
  fat := fun _ => kEndOfClusterchain
  data := fun _ k =>
    if k < 11 then fillName83 name 0 (fun _ => kSpace) k
    else if k = 11 then Attribute.kDirectory.code else 0

/-- The root directory has one entry, a directory that has one entry, and so on; the last directory is
empty. -/
def nestedVolume (names : List (List UInt8)) : Volume where
  bytesPerCluster := kEntryBytes
  numFatEntries := names.length + 3
  rootCluster := 2
  fat := fun _ => kEndOfClusterchain
  data := fun c =>
    match names[c - 2]? with
    | none => fun _ => 0
    | some name => ((namedVolume name).setFirstCluster ⟨c, 0⟩ (c + 1)).data c

section NestedVolume

open Volume

variable {names : List (List UInt8)} {k fuel : Nat} {p : EntryPtr} {postSlash : Bool}

theorem nestedVolume_data (hk : k < names.length) : (nestedVolume names).data (2 + k) =
    ((namedVolume names[k]).setFirstCluster ⟨2 + k, 0⟩ (2 + k + 1)).data (2 + k) := by
  unfold nestedVolume
  dsimp only
  rw [Nat.add_sub_cancel_left, List.getElem?_eq_getElem hk]

theorem nestedVolume_byte (hk : k < names.length) {j : Nat} (hj : j < 20) :
    (nestedVolume names).entryByte ⟨2 + k, 0⟩ j =
      if j < 11 then fillName83 names[k] 0 (fun _ => kSpace) j
      else if j = 11 then Attribute.kDirectory.code else 0 := by
  have hsame := sameEntry_setFirstCluster (namedVolume names[k]) ⟨2 + k, 0⟩ (2 + k + 1) ⟨2 + k, 0⟩ j
    (by unfold kEntryBytes; omega) (by omega)
  have hbyte : (namedVolume names[k]).entryByte ⟨2 + k, 0⟩ j =
      if j < 11 then fillName83 names[k] 0 (fun _ => kSpace) j
      else if j = 11 then Attribute.kDirectory.code else 0 := by
    show (namedVolume names[k]).data (2 + k) (0 + j) = _
    rw [Nat.zero_add]
    rfl
  rw [← hbyte, ← hsame]
  exact congrFun (nestedVolume_data hk) _

theorem nestedVolume_directory (hk : k < names.length) (hmax : names.length + 3 ≤ kMaxFatEntries) :
    (nestedVolume names).attr ⟨2 + k, 0⟩ = Attribute.kDirectory.code ∧
      (nestedVolume names).firstCluster ⟨2 + k, 0⟩ = 2 + (k + 1) := by
  constructor
  · have h := nestedVolume_byte hk (j := 11) (by decide)
    rwa [if_neg (by decide), if_pos rfl] at h
  · unfold firstCluster
    rw [nestedVolume_data hk]
    apply firstCluster_setFirstCluster
    unfold kMaxFatEntries at hmax
    omega

theorem nestedVolume_chain (hk : k ≤ names.length) :
    (nestedVolume names).ClusterChain (2 + k) [2 + k] :=
  ⟨.last rfl, fun x hx => by
    obtain rfl := List.mem_singleton.mp hx
    exact ⟨⟨by omega, show 2 + k < names.length + 3 by omega⟩, (by decide : kEndOfClusterchain ≠ 0)⟩⟩

theorem nestedVolume_slots (names : List (List UInt8)) (c : Nat) :
    (nestedVolume names).slotsOf [c] = [⟨c, 0⟩] := by
  have hper : (nestedVolume names).entriesPerCluster = 1 :=
    Nat.div_self (show 0 < kEntryBytes by decide)
  unfold slotsOf
  rw [hper]
  rfl

/-- Each of the directories holds the next one. -/
theorem nestedVolume_entries (hnul : ∀ e ∈ names, 0 ∉ e) (hk : k < names.length) :
    (nestedVolume names).entriesOf [2 + k] = [⟨2 + k, 0⟩] := by
  have hzero : (nestedVolume names).entryByte ⟨2 + k, 0⟩ 0 ≠ 0 := by
    rw [nestedVolume_byte hk (by decide), if_pos (by decide)]
    exact fillName83_ne_zero (hnul _ (List.getElem_mem hk)) (by decide)
  unfold entriesOf
  rw [nestedVolume_slots]
  exact List.takeWhile_cons_of_pos (decide_eq_true hzero)

theorem nestedVolume_last : (nestedVolume names).entriesOf [2 + names.length] = [] := by
  have hzero : (nestedVolume names).entryByte ⟨2 + names.length, 0⟩ 0 = 0 := by
    unfold entryByte nestedVolume
    dsimp only
    rw [Nat.add_sub_cancel_left, List.getElem?_eq_none le_rfl]
  unfold entriesOf
  rw [nestedVolume_slots]
  exact List.takeWhile_cons_of_neg (by simpa using hzero)

/-- What a search finds, it finds in the directory it looks in. -/
theorem nestedVolume_find? (hnul : ∀ e ∈ names, 0 ∉ e) (hk : k ≤ names.length) {elem : List UInt8}
    (hfind : ((nestedVolume names).entriesOf [2 + k]).find?
      ((nestedVolume names).nameIsEqual · elem) = some p) :
    k < names.length ∧ p = ⟨2 + k, 0⟩ := by
  have hmem := List.mem_of_find?_eq_some hfind
  rcases Nat.lt_or_eq_of_le hk with hlt | rfl
  · rw [nestedVolume_entries hnul hlt] at hmem
    exact ⟨hlt, List.mem_singleton.mp hmem⟩
  · rw [nestedVolume_last] at hmem
    cases hmem

theorem nestedVolume_found (hnul : ∀ e ∈ names, 0 ∉ e) (hk : k < names.length) :
    ((nestedVolume names).entriesOf [2 + k]).find?
      ((nestedVolume names).nameIsEqual · names[k]) = some ⟨2 + k, 0⟩ := by
  have hequal : (nestedVolume names).nameIsEqual ⟨2 + k, 0⟩ names[k] := by
    rw [nameIsEqual_iff]
    intro j hj
    rw [nestedVolume_byte hk (by omega), if_pos hj]
  rw [nestedVolume_entries hnul hk]
  exact List.find?_cons_of_pos hequal

theorem nestedVolume_acyclic (hnul : ∀ e ∈ names, 0 ∉ e)
    (hmax : names.length + 3 ≤ kMaxFatEntries) : (nestedVolume names).AcyclicDirectories 0 := by
  intro c hc
  have hcluster : ∃ k, k ≤ names.length ∧ c = 2 + k := by
    induction hc with
    | root => exact ⟨0, Nat.zero_le _, rfl⟩
    | start => exact ⟨0, Nat.zero_le _, rfl⟩
    | sub _ hl hp _ ih =>
      obtain ⟨k, hk, rfl⟩ := ih
      rw [hl.unique (nestedVolume_chain hk)] at hp
      rcases Nat.lt_or_eq_of_le hk with hlt | rfl
      · rw [nestedVolume_entries hnul hlt] at hp
        rw [List.mem_singleton.mp hp, (nestedVolume_directory hlt hmax).2]
        exact ⟨k + 1, hlt, if_neg (by omega)⟩
      · rw [nestedVolume_last] at hp
        cases hp
  obtain ⟨k, hk, rfl⟩ := hcluster
  exact ⟨_, nestedVolume_chain hk⟩

/-- A path without runs leads to the innermost directory. -/
theorem nestedVolume_reaches (hnul : ∀ e ∈ names, 0 ∉ e) (hfit : ∀ e ∈ names, e.length ≤ 12)
    (hmax : names.length + 3 ≤ kMaxFatEntries) (hk : k < names.length) (hhead : path.head? ≠ some kSlash)
    (hruns : ¬ RepeatsSlash path) (hnames : namesOf path = names.drop k) (hfuel : path.length ≤ fuel) :
    ∃ postSlash, (nestedVolume names).findElement fuel path (2 + k) =
      some (some ⟨2 + (names.length - 1), 0⟩, postSlash) := by
  induction fuel generalizing path k with
  | zero =>
    obtain rfl := List.length_eq_zero_iff.mp (Nat.le_zero.mp hfuel)
    have hlen := congrArg List.length hnames
    rw [List.length_drop] at hlen
    exact absurd (show 0 = _ from hlen) (by omega)
  | succ fuel ih =>
    have hdrop : names.drop k = names[k] :: names.drop (k + 1) := List.drop_eq_getElem_cons hk
    have hmaxT : (nestedVolume names).numFatEntries ≤ kMaxFatEntries := hmax
    have hchain := nestedVolume_chain (Nat.le_of_lt hk)
    obtain ⟨helem, hsplit⟩ | ⟨elem, next, helem, rfl, hsplit⟩ := nextPathElement_cases path
    · -- the last name
      have hne : path ≠ [] := by
        rintro rfl
        rw [hdrop] at hnames
        cases hnames
      rw [namesOf_last helem hne, hdrop] at hnames
      obtain ⟨rfl, hrest⟩ := List.cons.inj hnames
      have hlast := List.drop_eq_nil_iff.mp hrest.symm
      rw [findElement_last hmaxT hchain hsplit (hfit _ (List.getElem_mem hk)) (.inl rfl),
        nestedVolume_found hnul hk, show names.length - 1 = k by omega]
      exact ⟨false, rfl⟩
    · have hne : elem ≠ [] := by
        rintro rfl
        exact hhead rfl
      rw [namesOf_append helem hne, hdrop] at hnames
      obtain ⟨rfl, hrest⟩ := List.cons.inj hnames
      have hlen := hfit _ (List.getElem_mem hk)
      rw [List.length_append, List.length_cons] at hfuel
      obtain ⟨hnext, hruns'⟩ := not_or.mp ((repeatsSlash_append helem).not.mp hruns)
      by_cases hend : next = []
      · subst hend
        have hlast := List.drop_eq_nil_iff.mp hrest.symm
        rw [findElement_last hmaxT hchain hsplit hlen (.inr rfl), nestedVolume_found hnul hk,
          show names.length - 1 = k by omega]
        exact ⟨true, rfl⟩
      · -- one directory further in
        have hmore : k + 1 < names.length := by
          by_contra hge
          rw [List.drop_of_length_le (by omega)] at hrest
          exact namesOf_ne_nil hend hnext hrest
        obtain ⟨hattr, hfirst⟩ := nestedVolume_directory hk hmax
        rw [findElement_next hmaxT hchain hsplit hlen hend, nestedVolume_found hnul hk]
        dsimp only
        rw [if_pos hattr, hfirst, findFileFrom_relative hnext, directoryAt, if_neg (by omega)]
        exact ih hmore hnext hruns' hrest (by omega)

/-- The empty element finds nothing in the root directory, as long as the first name is not blank. -/
theorem nestedVolume_blank (hnul : ∀ e ∈ names, 0 ∉ e) (hmax : names.length + 3 ≤ kMaxFatEntries)
    {name : List UInt8} (hname : names.head? = some name)
    (hblank : ∃ j < 11, fillName83 name 0 (fun _ => kSpace) j ≠ kSpace)
    (hpath : path = [] ∨ path.head? = some kSlash) :
    (nestedVolume names).findElement fuel path 2 ≠ some (some p, postSlash) := by
  obtain ⟨tail, rfl⟩ : ∃ tail, names = name :: tail := by
    cases names with
    | nil => cases hname
    | cons n tail => exact ⟨tail, by rw [Option.some.inj hname]⟩
  obtain ⟨j, hj, hne⟩ := hblank
  have hfirst : (nextPathElement path).1 = [] := by
    rcases hpath with rfl | hhead
    · rfl
    · obtain ⟨helem, -⟩ | ⟨elem, next, helem, rfl, hsplit⟩ := nextPathElement_cases path
      · cases path with
        | nil => cases hhead
        | cons c path => exact absurd (Option.some.inj hhead ▸ List.mem_cons_self) helem
      · cases elem with
        | nil => rw [hsplit]
        | cons c elem => exact absurd (Option.some.inj hhead ▸ List.mem_cons_self) helem
  have hnone : ((nestedVolume (name :: tail)).entriesOf [2]).find?
      ((nestedVolume (name :: tail)).nameIsEqual · []) = none := by
    have hentries := nestedVolume_entries (k := 0) hnul (Nat.succ_pos _)
    rw [Nat.add_zero] at hentries
    rw [hentries]
    apply List.find?_cons_of_neg
    rw [nameIsEqual_iff]
    intro hequal
    have hbyte := nestedVolume_byte (show 0 < (name :: tail).length from Nat.succ_pos _)
      (show j < 20 by omega)
    rw [if_pos hj] at hbyte
    exact hne (hbyte.symm.trans (hequal j hj))
  have hchain := nestedVolume_chain (Nat.zero_le (name :: tail).length)
  unfold findElement
  dsimp only
  rw [hfirst, if_neg (by decide),
    findInDirectory_eq hmax hchain [] (Nat.lt_succ_of_le hchain.length_le)]
  rw [Nat.add_zero, hnone, Option.bind_some]
  intro heq
  cases heq

/-- Every name of a path leads at most one directory further in, and a run of slashes leads out again. -/
theorem nestedVolume_depth (hnul : ∀ e ∈ names, 0 ∉ e) (hmax : names.length + 3 ≤ kMaxFatEntries)
    {name : List UInt8} (hname : names.head? = some name)
    (hblank : ∃ j < 11, fillName83 name 0 (fun _ => kSpace) j ≠ kSpace)
    (hfit : ∀ e ∈ path.splitOn kSlash, e.length ≤ 12) (hk : k ≤ names.length) (hne : path ≠ [])
    (hhead : path.head? ≠ some kSlash)
    (hfind : (nestedVolume names).findFileFrom fuel path (2 + k) = some (some p, postSlash)) :
    p.cluster < 2 + k + (namesOf path).length ∧
      (RepeatsSlash path → p.cluster + 1 < 2 + k + (namesOf path).length) := by
  have hmaxT : (nestedVolume names).numFatEntries ≤ kMaxFatEntries := hmax
  induction fuel generalizing path k with
  | zero => cases hfind
  | succ fuel ih =>
    have hchain := nestedVolume_chain hk
    rw [findFileFrom_relative hhead, directoryAt, if_neg (by omega)] at hfind
    obtain ⟨helem, hsplit⟩ | ⟨elem, next, helem, rfl, hsplit⟩ := nextPathElement_cases path
    · -- the last name, and no slash
      rw [List.splitOn_eq_singleton helem] at hfit
      rw [findElement_last hmaxT hchain hsplit (hfit path List.mem_cons_self) (.inl rfl)] at hfind
      have hp := (nestedVolume_find? hnul hk (Prod.mk.inj (Option.some.inj hfind)).1).2
      rw [namesOf_last helem hne, hp]
      exact ⟨Nat.lt_succ_self _, fun hruns => absurd hruns (not_repeatsSlash helem)⟩
    · have helem' : elem ≠ [] := by
        rintro rfl
        exact hhead rfl
      rw [List.splitOn_append_cons_self_of_not_mem helem] at hfit
      have hlen := hfit elem List.mem_cons_self
      rw [namesOf_append helem helem', List.length_cons, repeatsSlash_append helem]
      by_cases hend : next = []
      · subst hend
        rw [findElement_last hmaxT hchain hsplit hlen (.inr rfl)] at hfind
        have hp := (nestedVolume_find? hnul hk (Prod.mk.inj (Option.some.inj hfind)).1).2
        rw [hp]
        exact ⟨Nat.lt_succ_self _, fun hruns => absurd hruns (by simp [RepeatsSlash])⟩
      · rw [findElement_next hmaxT hchain hsplit hlen hend] at hfind
        cases hq : ((nestedVolume names).entriesOf [2 + k]).find?
            ((nestedVolume names).nameIsEqual · elem) with
        | none =>
          rw [hq] at hfind
          cases hfind
        | some q =>
          obtain ⟨hlt, rfl⟩ := nestedVolume_find? hnul hk hq
          obtain ⟨hattr, hfirst⟩ := nestedVolume_directory hlt hmax
          rw [hq] at hfind
          dsimp only at hfind
          rw [if_pos hattr, hfirst] at hfind
          have hfit' := fun e he => hfit e (List.mem_cons_of_mem _ he)
          by_cases hslash : next.head? = some kSlash
          · -- back to the root directory
            obtain ⟨rest, rfl⟩ : ∃ rest, next = kSlash :: rest := by
              cases next with
              | nil => cases hslash
              | cons c rest => exact ⟨rest, by rw [Option.some.inj hslash]⟩
            obtain ⟨fuel, rfl⟩ : ∃ f, fuel = f + 1 := by
              cases fuel with
              | zero => cases hfind
              | succ f => exact ⟨f, rfl⟩
            rw [findFileFrom_absolute] at hfind
            rw [splitOn_slash] at hfit'
            by_cases hrest : rest = [] ∨ rest.head? = some kSlash
            · exact absurd hfind (nestedVolume_blank hnul hmax hname hblank hrest)
            · obtain ⟨hrest, hhead'⟩ := not_or.mp hrest
              have hbound := (ih (k := 0) (fun e he => hfit' e (List.mem_cons_of_mem _ he))
                (Nat.zero_le _) hrest hhead' (by rw [findFileFrom_relative hhead']; exact hfind)).1
              rw [namesOf_slash]
              exact ⟨by omega, fun _ => by omega⟩
          · obtain ⟨hbound, hstrict⟩ := ih hfit' hlt hend hslash hfind
            refine ⟨by omega, fun hruns => ?_⟩
            have := hstrict (hruns.resolve_left hslash)
            omega

/-- What an absolute or relative path finds from the root directory. -/
theorem nestedVolume_findFile_lt (hnul : ∀ e ∈ names, 0 ∉ e) (hmax : names.length + 3 ≤ kMaxFatEntries)
    {name : List UInt8} (hname : names.head? = some name)
    (hblank : ∃ j < 11, fillName83 name 0 (fun _ => kSpace) j ≠ kSpace)
    (hfit : ∀ e ∈ path.splitOn kSlash, e.length ≤ 12) (hne : path ≠ []) (hruns : RepeatsSlash path)
    (hfind : (nestedVolume names).findFile path 0 = some (some p, postSlash)) :
    p.cluster + 1 < 2 + (namesOf path).length := by
  by_cases hhead : path.head? = some kSlash
  · obtain ⟨rest, rfl⟩ : ∃ rest, path = kSlash :: rest := by
      cases path with
      | nil => cases hhead
      | cons c rest => exact ⟨rest, by rw [Option.some.inj hhead]⟩
    rw [findFile, List.length_cons, findFileFrom_absolute] at hfind
    rw [splitOn_slash] at hfit
    rw [namesOf_slash]
    by_cases hrest : rest = [] ∨ rest.head? = some kSlash
    · exact absurd hfind (nestedVolume_blank hnul hmax hname hblank hrest)
    · obtain ⟨hrest, hhead'⟩ := not_or.mp hrest
      have hfrom := (findFileFrom_relative hhead' (rest.length + 1) 2).trans hfind
      apply (nestedVolume_depth (k := 0) hnul hmax hname hblank
        (fun e he => hfit e (List.mem_cons_of_mem _ he)) (Nat.zero_le _) hrest hhead' hfrom).2
      exact hruns.resolve_left fun h => hhead' h.2
  · rw [findFile, findFileFrom_relative hhead] at hfind
    have hfrom := (findFileFrom_relative hhead path.length 2).trans hfind
    exact (nestedVolume_depth (k := 0) hnul hmax hname hblank hfit (Nat.zero_le _) hne hhead hfrom).2
      hruns

theorem nestedVolume_findFile_eq (hnul : ∀ e ∈ names, 0 ∉ e) (hfit : ∀ e ∈ names, e.length ≤ 12)
    (hmax : names.length + 3 ≤ kMaxFatEntries) (hne : names ≠ []) (hruns : ¬ RepeatsSlash path)
    (hnames : namesOf path = names) : ∃ postSlash, (nestedVolume names).findFile path 0 =
      some (some ⟨2 + (names.length - 1), 0⟩, postSlash) := by
  have hpos := List.length_pos_of_ne_nil hne
  by_cases hhead : path.head? = some kSlash
  · obtain ⟨rest, rfl⟩ : ∃ rest, path = kSlash :: rest := by
      cases path with
      | nil => cases hhead
      | cons c rest => exact ⟨rest, by rw [Option.some.inj hhead]⟩
    obtain ⟨hrest, hruns'⟩ := not_or.mp hruns
    rw [namesOf_slash] at hnames
    rw [findFile, List.length_cons, findFileFrom_absolute]
    exact nestedVolume_reaches (k := 0) hnul hfit hmax hpos (fun h => hrest ⟨rfl, h⟩) hruns' hnames
      (Nat.le_succ _)
  · rw [findFile, findFileFrom_relative hhead]
    exact nestedVolume_reaches (k := 0) hnul hfit hmax hpos hhead hruns hnames le_rfl

end NestedVolume

theorem mem_namesOf (h : elem ∈ namesOf path) : elem ∈ path.splitOn kSlash := (List.mem_filter.mp h).1

theorem namesOf_length_le (path : List UInt8) : (namesOf path).length ≤ path.length + 1 := by
  refine (List.length_filter_le _ _).trans ?_
  induction path with
  | nil => rw [List.splitOn_nil]; exact le_rfl
  | cons c path ih =>
    rw [List.splitOn_cons_eq_if_modifyHead, List.length_cons]
    split
    · rw [List.length_cons]
      exact Nat.succ_le_succ ih
    · rw [List.length_modifyHead]
      exact ih.trans (Nat.le_succ _)

/-- For a path that starts with a name, runs of slashes make no difference on any tree exactly if there
are none. -/
theorem findFile_collapseSlashes_iff (hnul : 0 ∉ path) (hfit : ∀ e ∈ path.splitOn kSlash, e.length ≤ 12)
    {name : List UInt8} (hname : (namesOf path).head? = some name)
    (hblank : ∃ j < 11, fillName83 name 0 (fun _ => kSpace) j ≠ kSpace)
    (hlen : path.length + 4 ≤ kMaxFatEntries) :
    (∀ (v : Volume) (d : Nat), v.numFatEntries ≤ kMaxFatEntries → v.AcyclicDirectories d →
      (v.findFile path d).map Prod.fst = (v.findFile (collapseSlashes path) d).map Prod.fst) ↔
      ¬ [kSlash, kSlash] <:+: path := by
  rw [← repeatsSlash_iff]
  constructor
  · intro h hruns
    have hnuls : ∀ e ∈ namesOf path, 0 ∉ e := fun e he hz => hnul (mem_of_mem_splitOn (mem_namesOf he) hz)
    have hfits : ∀ e ∈ namesOf path, e.length ≤ 12 := fun e he => hfit e (mem_namesOf he)
    have hmax : (namesOf path).length + 3 ≤ kMaxFatEntries := by
      have := namesOf_length_le path
      omega
    have hne : namesOf path ≠ [] := by
      intro he
      rw [he] at hname
      cases hname
    -- without the runs, the names of the path lead to the innermost of the nested directories
    obtain ⟨b, hcollapsed⟩ := nestedVolume_findFile_eq hnuls hfits hmax hne
      (not_repeatsSlash_collapseSlashes path) (namesOf_collapseSlashes path)
    have heq := h (nestedVolume (namesOf path)) 0 hmax (nestedVolume_acyclic hnuls hmax)
    rw [hcollapsed, Option.map_some] at heq
    -- the same entry would lie one directory further in than the path with the run leads
    obtain ⟨⟨r, b'⟩, hfind, hr⟩ := Option.map_eq_some_iff.mp heq
    obtain rfl : r = _ := hr
    have hlt := nestedVolume_findFile_lt hnuls hmax hname hblank hfit
      (fun he => by rw [he] at hruns; exact hruns) hruns hfind
    have hpos := List.length_pos_of_ne_nil hne
    dsimp only at hlt
    omega
  · intro hruns v d _ _
    rw [collapseSlashes_eq hruns]

theorem findFile_collapseSlashes_iff_two_elements :
    ((rootVolume [bytesOf "bin", bytesOf "a.txt"]).findFile (bytesOf "/bin/a.txt") 0).map Prod.fst =
      ((rootVolume [bytesOf "bin", bytesOf "a.txt"]).findFile
        (collapseSlashes (bytesOf "/bin/a.txt")) 0).map Prod.fst :=
  (findFile_collapseSlashes_iff (by decide : 0 ∉ bytesOf "/bin/a.txt") (by decide)
    (by decide : _ = some (bytesOf "bin")) ⟨0, by decide⟩ (by decide)).mpr (by decide +kernel) _ 0 (by decide)
    (rootVolume_acyclic _)

/-- "a//b" looks for "b" in the root directory, "a/b" in the directory "a". -/
theorem findFile_doubled_slash :
    (nestedVolume [bytesOf "a", bytesOf "b"]).AcyclicDirectories 0 ∧
    collapseSlashes (bytesOf "a//b") = bytesOf "a/b" ∧
    (nestedVolume [bytesOf "a", bytesOf "b"]).findFile (bytesOf "a//b") 0 = some (none, false) ∧
    (nestedVolume [bytesOf "a", bytesOf "b"]).findFile (bytesOf "a/b") 0 =
      some (some ⟨3, 0⟩, false) :=
  ⟨nestedVolume_acyclic (by decide) (by decide), by decide, by decide +kernel, by decide +kernel⟩

end MikanSaos
