import MikanSaos.FileSystem.PathResolution

/-!
# PathBuffers — what `FindFile` copies into its buffer

Every level of the recursion copies one element of the path into `path_elem`, which has 13 bytes.
-/

open Reasoning

namespace MikanSaos

namespace Volume

/-- The strings that `NextPathElement` copies into `path_elem`, one a level of the recursion; after a copy
that does not fit nothing is known. -/
def pathElements (v : Volume) : Nat → List UInt8 → Nat → List (List UInt8)
  | 0, _, _ => []
  | fuel + 1, path, directoryCluster =>
    let absolute := path.head? = some kSlash
    let directoryCluster :=
      if absolute ∨ directoryCluster = 0 then v.rootCluster else directoryCluster
    let (elem, nextPath, _) := nextPathElement (if absolute then path.tail else path)
    elem ::
      if 12 < elem.length then []
      else
        match v.findInDirectory elem (v.numFatEntries + 1) directoryCluster with
        | some (some p) =>
          match nextPath with
          | some (c :: next) =>
            if v.attr p = Attribute.kDirectory.code then
              pathElements v fuel (c :: next) (v.firstCluster p)
            else []
          | _ => []
        | _ => []

/-- The copies that `FindFile(path, directory_cluster)` makes. -/
def pathCopies (v : Volume) (path : List UInt8) (directoryCluster : Nat) : List (List UInt8) :=
  v.pathElements (path.length + 1) path directoryCluster

end Volume

open Volume

variable {v : Volume} {path elem next : List UInt8} {elems : List (List UInt8)} {cluster fuel : Nat}

/-! ## Elements of a path -/

/-- A path is its first element, or that and a slash and the rest. -/
theorem nextPathElement_cases (path : List UInt8) :
    (kSlash ∉ path ∧ nextPathElement path = (path, none, false)) ∨
      ∃ elem next, kSlash ∉ elem ∧ path = elem ++ kSlash :: next ∧
        nextPathElement path = (elem, some next, true) := by
  by_cases hmem : kSlash ∈ path
  · obtain ⟨elem, next, rfl, helem⟩ := List.eq_append_cons_of_mem hmem
    exact .inr ⟨elem, next, helem, rfl, nextPathElement_slash helem⟩
  · exact .inl ⟨hmem, nextPathElement_last hmem⟩

/-- A slash at the start has an empty element before it. -/
theorem splitOn_slash (path : List UInt8) :
    (kSlash :: path).splitOn kSlash = [] :: path.splitOn kSlash :=
  List.splitOn_append_cons_self_of_not_mem (List.not_mem_nil (a := kSlash)) path

theorem mem_splitOn_tail (h : elem ∈ (if path.head? = some kSlash then path.tail else path).splitOn kSlash) :
    elem ∈ path.splitOn kSlash := by
  split at h
  · rename_i habs
    cases path with
    | nil => exact h
    | cons c path =>
      obtain rfl : c = kSlash := Option.some.inj habs
      rw [splitOn_slash]
      exact List.mem_cons_of_mem _ h
  · exact h

theorem mem_of_mem_splitOn {c : UInt8} (h : elem ∈ path.splitOn kSlash) (hc : c ∈ elem) : c ∈ path := by
  induction path generalizing elem with
  | nil =>
    rw [List.splitOn_nil] at h
    exact List.mem_singleton.mp h ▸ hc
  | cons b path ih =>
    rw [List.splitOn_cons_eq_if_modifyHead] at h
    split at h
    · rcases List.mem_cons.mp h with rfl | h
      · cases hc
      · exact List.mem_cons_of_mem b (ih h hc)
    · cases hsplit : path.splitOn kSlash with
      | nil => exact absurd hsplit (List.splitOn_ne_nil _ _)
      | cons part parts =>
        rw [hsplit] at h ih
        rcases List.mem_cons.mp h with rfl | h
        · rcases List.mem_cons.mp hc with rfl | hc
          · exact List.mem_cons_self
          · exact List.mem_cons_of_mem b (ih List.mem_cons_self hc)
        · exact List.mem_cons_of_mem b (ih (List.mem_cons_of_mem part h) hc)

/-- Only elements of the path are copied. -/
theorem pathElements_subset (v : Volume) (fuel : Nat) (path : List UInt8) (cluster : Nat) :
    v.pathElements fuel path cluster ⊆ path.splitOn kSlash := by
  induction fuel generalizing path cluster with
  | zero => exact List.nil_subset _
  | succ fuel ih =>
    intro e he
    apply mem_splitOn_tail
    rw [pathElements] at he
    -- an element behind a slash at the start is an element of the whole path
    generalize (if path.head? = some kSlash then path.tail else path) = path' at he ⊢
    generalize (if path.head? = some kSlash ∨ cluster = 0 then v.rootCluster else cluster) = cluster'
      at he
    obtain ⟨helem, hsplit⟩ | ⟨elem, next, helem, rfl, hsplit⟩ := nextPathElement_cases path'
    · -- the last element
      rw [List.splitOn_eq_singleton helem]
      rw [hsplit] at he
      dsimp only at he
      split at he
      · exact he
      · split at he <;> exact he
    · rw [List.splitOn_append_cons_self_of_not_mem helem]
      rw [hsplit] at he
      rcases List.mem_cons.mp he with rfl | he
      · exact List.mem_cons_self
      · apply List.mem_cons_of_mem
        split at he
        · cases he
        · split at he
          · split at he
            · rename_i hnext
              split at he
              · rw [Option.some.inj hnext]
                exact ih _ _ he
              · cases he
            · cases he
          · cases he

/-! ## A tree in which all elements are copied -/

theorem rootVolume_findInDirectory (hnul : ∀ e ∈ elems, 0 ∉ e) (helem : elem ∈ elems) :
    ∃ i, i < elems.length ∧ (rootVolume elems).findInDirectory elem
      ((rootVolume elems).numFatEntries + 1) 2 = some (some ⟨2, i⟩) := by
  obtain ⟨i, hi, hfind⟩ := rootVolume_find? hnul helem
  refine ⟨i, hi, ?_⟩
  rw [findInDirectory_eq (show 3 ≤ kMaxFatEntries by decide) (rootVolume_chain elems) elem
    (Nat.lt_succ_of_le (rootVolume_chain elems).length_le), hfind]

/-- Where every element is the name of a directory, one that is too long is copied some time. -/
theorem rootVolume_copies (hnul : ∀ e ∈ elems, 0 ∉ e) (hfuel : path.length < fuel)
    (hsub : path.splitOn kSlash ⊆ elems) (hlong : ∃ e ∈ path.splitOn kSlash, 12 < e.length) :
    ∃ e ∈ (rootVolume elems).pathElements fuel path 0, 12 < e.length := by
  induction fuel generalizing path with
  | zero => exact absurd hfuel (Nat.not_lt_zero _)
  | succ fuel ih =>
    obtain ⟨bad, hbad, hlen⟩ := hlong
    have hroot : (if path.head? = some kSlash ∨ 0 = 0 then (rootVolume elems).rootCluster else 0) = 2 :=
      if_pos (.inr rfl)
    rw [pathElements]
    dsimp only
    rw [hroot]
    -- behind a slash at the start the element that is too long is still there
    have hrest : bad ∈ (if path.head? = some kSlash then path.tail else path).splitOn kSlash ∧
        (if path.head? = some kSlash then path.tail else path).length ≤ path.length := by
      split
      · rename_i habs
        cases path with
        | nil => exact ⟨hbad, le_rfl⟩
        | cons c path =>
          obtain rfl : c = kSlash := Option.some.inj habs
          rw [splitOn_slash] at hbad
          rcases List.mem_cons.mp hbad with rfl | hbad
          · exact absurd hlen (by decide)
          · exact ⟨hbad, Nat.le_succ _⟩
      · exact ⟨hbad, le_rfl⟩
    have hsub' : (if path.head? = some kSlash then path.tail else path).splitOn kSlash ⊆ elems :=
      fun e he => hsub (mem_splitOn_tail he)
    generalize (if path.head? = some kSlash then path.tail else path) = path' at hrest hsub' ⊢
    obtain ⟨hbad', hle⟩ := hrest
    obtain ⟨helem, hsplit⟩ | ⟨elem, next, helem, rfl, hsplit⟩ := nextPathElement_cases path'
    · rw [List.splitOn_eq_singleton helem] at hbad'
      refine ⟨bad, ?_, hlen⟩
      rw [hsplit, List.mem_singleton.mp hbad']
      exact List.mem_cons_self
    · rw [List.splitOn_append_cons_self_of_not_mem helem] at hbad' hsub'
      rw [hsplit]
      dsimp only
      -- if this element fits, the one that does not is further behind
      by_cases hfit : 12 < elem.length
      · exact ⟨elem, List.mem_cons_self, hfit⟩
      · have hbad := (List.mem_cons.mp hbad').resolve_left fun he => hfit (he ▸ hlen)
        have hnext : next ≠ [] := by
          rintro rfl
          rw [List.splitOn_nil] at hbad
          rw [List.mem_singleton.mp hbad] at hlen
          exact absurd hlen (by decide)
        obtain ⟨b, next, rfl⟩ := List.exists_cons_of_ne_nil hnext
        obtain ⟨i, hi, hfind⟩ := rootVolume_findInDirectory hnul (hsub' List.mem_cons_self)
        obtain ⟨hattr, hfirst⟩ := rootVolume_directory hi
        rw [List.length_append, List.length_cons] at hle
        obtain ⟨e, he, hlong⟩ := ih (by omega) (fun e he => hsub' (List.mem_cons_of_mem _ he))
          ⟨bad, hbad, hlen⟩
        refine ⟨e, List.mem_cons_of_mem _ ?_, hlong⟩
        rw [if_neg hfit, hfind]
        dsimp only
        rwa [if_pos hattr, hfirst]

/-- On every tree all copies fit, exactly if no element of the path has more than twelve bytes; the
names that `FormatName` makes always do. -/
theorem pathCopies_fit_iff (hnul : 0 ∉ path) :
    ((∀ (v : Volume) (d : Nat), v.numFatEntries ≤ kMaxFatEntries → v.AcyclicDirectories d →
      ∀ elem ∈ v.pathCopies path d, elem.length + 1 ≤ 13) ↔
        ∀ elem ∈ path.splitOn kSlash, elem.length ≤ 12) ∧
      ∀ (v : Volume) (p : EntryPtr), (v.formatName p).length + 1 ≤ 13 := by
  refine ⟨⟨fun h => ?_, fun h v d _ _ elem helem => ?_⟩, fun v p => ?_⟩
  · by_contra hlong
    obtain ⟨elem, helem, hlen⟩ := not_forall₂.mp hlong
    have hnone : ∀ e ∈ path.splitOn kSlash, 0 ∉ e := fun e he hz =>
      hnul (mem_of_mem_splitOn he hz)
    -- on the tree with all its elements as directories the copy is made
    obtain ⟨e, he, hlen'⟩ := rootVolume_copies hnone
      (Nat.lt_succ_self path.length) (List.Subset.refl (path.splitOn kSlash)) ⟨elem, helem, Nat.not_le.mp hlen⟩
    have hfit := h _ 0 (show 3 ≤ kMaxFatEntries by decide) (rootVolume_acyclic _) e he
    omega
  · exact Nat.succ_le_succ (h elem (pathElements_subset v _ _ _ helem))
  · exact Nat.succ_le_succ (formatName_length_le v p)

theorem pathCopies_fit_iff_two_elements :
    (∀ elem ∈ (rootVolume [bytesOf "bin", bytesOf "a.txt"]).pathCopies (bytesOf "/bin/a.txt") 0,
      elem.length + 1 ≤ 13) ∧
    (rootVolume [bytesOf "bin", bytesOf "a.txt"]).pathCopies (bytesOf "/bin/a.txt") 0 =
      [bytesOf "bin", bytesOf "a.txt"] :=
  ⟨(pathCopies_fit_iff (by decide : 0 ∉ bytesOf "/bin/a.txt")).1.mpr (by decide) _ 0 (by decide)
    (rootVolume_acyclic _), by decide +kernel⟩

/-- A file name of 13 letters fills the buffer, so that its NUL is written behind it. -/
theorem pathCopies_overrun :
    (rootVolume [bytesOf "bin"]).AcyclicDirectories 0 ∧
    bytesOf "configuration" ∈ (rootVolume [bytesOf "bin"]).pathCopies (bytesOf "bin/configuration") 0 ∧
    ¬ (bytesOf "configuration").length + 1 ≤ 13 :=
  ⟨rootVolume_acyclic _, by decide +kernel, by decide⟩

end MikanSaos
