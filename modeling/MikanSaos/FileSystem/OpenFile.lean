import MikanSaos.FileSystem.CreateFrame
import MikanSaos.FileSystem.PathWalk

/-!
# OpenFile — the entry that a new file descriptor gets

`OpenFile` looks the path up as a whole, and `CreateFile` then looks up the path before the last slash.  Not
every error of `CreateFile` is an error of `OpenFile`, so that the two lookups have to agree.
-/

namespace MikanSaos

def ENOENT : Nat := 2
def EISDIR : Nat := 21
def ENOSPC : Nat := 28

/-- The bit of `O_CREAT` in `flags`. -/
def oCreat : Nat := 0x200

/-- The `errno` for an error of `fat32::CreateFile`; the default is that there is none. -/
def createErrno : Error → Nat
  | .kIsDirectory => EISDIR
  | .kNoSuchEntry => ENOENT
  | .kNoEnoughMemory => ENOSPC
  | _ => 0

/-- `OpenFile` returns, or constructs a file descriptor from an entry pointer, which may be null. -/
inductive OpenResult where
  | returned (value errno : Nat)
  | construct (file : Option EntryPtr)
  deriving DecidableEq

variable {path : List UInt8}

theorem splitLast_eq {c : UInt8} {s before behind : List UInt8}
    (h : splitLast c s = some (before, behind)) : s = before ++ c :: behind := (eq_of_splitLast h).1

namespace Volume

/-- `CreateFile` of the system calls: the entry and the `errno`. -/
def createFileErrno (v : Volume) (path : List UInt8) : Option ((Option EntryPtr × Nat) × Volume) :=
  (v.createFile path).map fun (file, v) => ((file.value, createErrno file.error), v)

def openFile (v : Volume) (path : List UInt8) (flags : Nat) : Option (OpenResult × Volume) :=
  if path = bytesOf "@stdin" then some (.returned 0 0, v)
  else
    (v.findFile path 0).bind fun (file, postSlash) =>
      match file with
      | none =>
        if flags &&& oCreat = 0 then some (.returned 0 ENOENT, v)
        else
          (v.createFileErrno path).map fun ((newFile, err), v) =>
            if err ≠ 0 then (.returned 0 err, v) else (.construct newFile, v)
      | some p =>
        if v.attr p ≠ Attribute.kDirectory.code ∧ postSlash then some (.returned 0 ENOENT, v)
        else some (.construct (some p), v)

variable {v v' : Volume} {q : EntryPtr} {fuel directory cluster : Nat} {elem : List UInt8} {b : Bool}

/-- A file ends the lookup, whatever follows in the path. -/
theorem Finds.findElement_file (h : v.Finds elem directory q)
    (hattr : v.attr q ≠ Attribute.kDirectory.code) {nextPath : Option (List UInt8)}
    (hsplit : nextPathElement path = (elem, nextPath, b)) (fuel : Nat) :
    v.findElement fuel path directory = some (some q, b) := by
  unfold Volume.findElement
  rw [hsplit]
  dsimp only
  rw [if_neg (Nat.not_lt.mpr h.length_le), h.found, Option.bind_some]
  cases nextPath with
  | none => rfl
  | some next =>
    cases next with
    | nil => rfl
    | cons c next => exact if_neg hattr

/-- **A file in the middle of a path is found for the whole path.**  When the lookup of a path ends at
an entry that is no directory, the lookup of every longer path ends there as well. -/
theorem findFileFrom_extend {fuel' : Nat} (hattr : v.attr q ≠ Attribute.kDirectory.code)
    (hne : path ≠ []) (hfuel : fuel ≤ fuel')
    (h : v.findFileFrom fuel path cluster = some (some q, b)) (filename : List UInt8) :
    ∃ b', v.findFileFrom fuel' (path ++ kSlash :: filename) cluster = some (some q, b') := by
  -- induction on the directories that are gone into
  induction fuel generalizing path cluster fuel' with
  | zero => cases h
  | succ fuel ih =>
    obtain ⟨fuel', rfl⟩ : ∃ f, fuel' = f + 1 := ⟨fuel' - 1, by omega⟩
    have hdirectory : v.directoryFor (path ++ kSlash :: filename) cluster =
        v.directoryFor path cluster := by
      obtain ⟨c, path, rfl⟩ := List.exists_cons_of_ne_nil hne
      rfl
    rw [findFileFrom_succ] at h ⊢
    rw [afterSlash_append hne, hdirectory]
    generalize v.directoryFor path cluster = directory at h ⊢
    generalize afterSlash path = tail at h ⊢
    obtain ⟨elem, nextPath, b', hsplit⟩ : ∃ elem nextPath b',
      nextPathElement tail = (elem, nextPath, b') := ⟨_, _, _, rfl⟩
    -- the first element of the longer path is the same one
    have hlonger : nextPathElement (tail ++ kSlash :: filename) =
        (elem, some ((nextPath.map (· ++ kSlash :: filename)).getD filename), true) := by
      cases nextPath with
      | none =>
        obtain ⟨hslash, rfl⟩ := nextPathElement_none hsplit
        exact nextPathElement_slash hslash
      | some next =>
        obtain ⟨hslash, rfl⟩ := nextPathElement_some hsplit
        rw [List.append_assoc, List.cons_append]
        exact nextPathElement_slash hslash
    unfold findElement at h
    rw [hsplit] at h
    dsimp only at h
    split at h
    · cases h
    · rename_i hlen
      obtain ⟨found, hfind, h⟩ := Option.bind_eq_some_iff.mp h
      cases found with
      | none => cases h
      | some r =>
        have hfinds : v.Finds elem directory r := ⟨Nat.le_of_not_lt hlen, hfind⟩
        cases nextPath with
        | none =>
          -- the file is the last element
          cases h
          exact ⟨_, hfinds.findElement_file hattr hlonger fuel'⟩
        | some next =>
          cases next with
          | nil =>
            -- or only a slash follows
            cases h
            exact ⟨_, hfinds.findElement_file hattr hlonger fuel'⟩
          | cons c next =>
            dsimp only at h
            split at h
            · -- one directory further in
              rename_i hdir
              obtain ⟨hslash, rfl⟩ := nextPathElement_some hsplit
              rw [List.append_assoc, List.cons_append,
                hfinds.findElement hdir hslash (List.append_ne_nil_of_left_ne_nil (List.cons_ne_nil c next) _)]
              exact ih (List.cons_ne_nil c next) (by omega) h
            · -- a file where the path goes on
              cases h
              exact ⟨_, hfinds.findElement_file hattr hlonger fuel'⟩

/-- A path that is not found has no file where its parent directory should be. -/
theorem parentDirectory_ne_isNotDirectory (hfind : v.findFile path 0 = some (none, b)) :
    v.parentDirectory path ≠ some (.error .kIsNotDirectory) := by
  unfold parentDirectory
  cases hsplit : splitLast kSlash path with
  | none => exact nofun
  | some parts =>
    obtain ⟨parentDirName, filename⟩ := parts
    dsimp only
    split
    · exact nofun
    · split
      · exact nofun
      · rename_i hname hparent
        intro h
        obtain ⟨⟨found, b'⟩, hparentFind, hresult⟩ := Option.map_eq_some_iff.mp h
        cases found with
        | none => cases hresult
        | some q =>
          dsimp only at hresult
          split at hresult
          · rename_i hattr
            -- the file at the parent path would have been found
            have hpath := splitLast_eq hsplit
            have hlength := congrArg List.length hpath
            rw [List.length_append] at hlength
            have hfuel : parentDirName.length + 1 ≤ path.length + 1 := by omega
            obtain ⟨b'', hwhole⟩ := findFileFrom_extend hattr hparent hfuel hparentFind filename
            rw [← hpath] at hwhole
            cases hwhole.symm.trans hfind
          · cases hresult

/-- `CreateFile` for a path that is not found: an entry, or an error that has an `errno`. -/
theorem createFile_of_not_found {file : WithError (Option EntryPtr)}
    (hfind : v.findFile path 0 = some (none, b)) (h : v.createFile path = some (file, v')) :
    (∃ p, file = ⟨some p, .kSuccess⟩) ∨ createErrno file.error ≠ 0 := by
  unfold createFile at h
  obtain ⟨parent, hparent, hput⟩ := Option.bind_eq_some_iff.mp h
  cases parent with
  | error err =>
    cases hput
    refine .inr fun hzero => parentDirectory_ne_isNotDirectory hfind ?_
    -- `CreateFile` has three errors, and two of them have an `errno`
    rw [hparent]
    unfold parentDirectory at hparent
    split at hparent
    · cases hparent
    · split at hparent
      · cases hparent
        cases hzero
      · split at hparent
        · cases hparent
        · obtain ⟨⟨found, b'⟩, -, hresult⟩ := Option.map_eq_some_iff.mp hparent
          cases found with
          | none =>
            cases hresult
            cases hzero
          | some q =>
            dsimp only at hresult
            split at hresult
            · cases hresult
              rfl
            · cases hresult
  | ok parent =>
    obtain ⟨⟨p, v₁⟩, -, heq⟩ := Option.map_eq_some_iff.mp hput
    cases heq
    exact .inl ⟨p, rfl⟩

/-- **`OpenFile` never constructs a descriptor from a null pointer.**  When the path is not found and
the `errno` of `CreateFile` is 0, `fat32::CreateFile` has returned an entry; its `kIsNotDirectory`, which
has no `errno`, does not occur there. -/
theorem openFile_entry (v : Volume) (path : List UInt8) :
    (∀ flags file v', v.openFile path flags = some (.construct file, v') → file ≠ none) ∧
    ∀ b, v.findFile path 0 = some (none, b) →
      v.parentDirectory path ≠ some (.error .kIsNotDirectory) ∧
      ∀ file v', v.createFileErrno path = some ((file, 0), v') →
        ∃ p, v.createFile path = some (⟨some p, .kSuccess⟩, v') ∧ file = some p := by
  have hcreate : ∀ b, v.findFile path 0 = some (none, b) → ∀ file v',
      v.createFileErrno path = some ((file, 0), v') →
        ∃ p, v.createFile path = some (⟨some p, .kSuccess⟩, v') ∧ file = some p := by
    intro b hfind file v' h
    obtain ⟨⟨res, v₁⟩, hres, heq⟩ := Option.map_eq_some_iff.mp h
    simp only [Prod.mk.injEq] at heq
    obtain ⟨⟨rfl, herrno⟩, rfl⟩ := heq
    rcases createFile_of_not_found hfind hres with ⟨p, rfl⟩ | hne
    · exact ⟨p, hres, rfl⟩
    · exact absurd herrno hne
  refine ⟨fun flags file v' h => ?_, fun b hfind => ⟨parentDirectory_ne_isNotDirectory hfind,
    hcreate b hfind⟩⟩
  unfold openFile at h
  split at h
  · cases h
  · obtain ⟨⟨found, postSlash⟩, hfind, h⟩ := Option.bind_eq_some_iff.mp h
    cases found with
    | some p =>
      dsimp only at h
      split at h
      · cases h
      · cases h
        exact Option.some_ne_none p
    | none =>
      -- the file is created, which gives an entry if there is no `errno`
      dsimp only at h
      split at h
      · cases h
      · obtain ⟨⟨⟨newFile, err⟩, v₁⟩, hnew, heq⟩ := Option.map_eq_some_iff.mp h
        dsimp only at heq
        split at heq
        · cases heq
        · rename_i hzero
          obtain rfl : err = 0 := not_not.mp hzero
          cases heq
          obtain ⟨p, -, rfl⟩ := hcreate _ hfind _ _ hnew
          exact Option.some_ne_none p

/-- A new file in the directory "D". -/
theorem openFile_entry_subdirectory :
    ∃ file v', subdirectoryVolume.openFile (bytesOf "D/B") oCreat = some (.construct file, v') ∧
      file ≠ none := by
  have hopen : (subdirectoryVolume.openFile (bytesOf "D/B") oCreat).map Prod.fst =
      some (.construct (some ⟨3, 0⟩)) := by decide +kernel
  obtain ⟨⟨res, v'⟩, hres, heq⟩ := Option.map_eq_some_iff.mp hopen
  cases heq
  exact ⟨_, v', hres, (openFile_entry subdirectoryVolume (bytesOf "D/B")).1 _ _ _ hres⟩

/-- The file "B" is in the middle of the path, and the lookup of the whole path ends at it. -/
example : (((subdirectoryVolume.openFile (bytesOf "B") oCreat).bind fun (_, v) =>
    v.openFile (bytesOf "B/C") oCreat).map Prod.fst) = some (.returned 0 ENOENT) := by decide +kernel

end Volume

end MikanSaos
