import MikanSaos.Error
import MikanSaos.FileSystem.Volume

/-!
# Directory — paths, `FindFile`, `CreateFile` and `DeleteFile`

A path is the list of the bytes before its NUL.  `FindFile` copies each path element into a buffer of
13 bytes; longer elements overrun it, which is `none` here.
-/

namespace MikanSaos

/-- The characters of an ASCII literal as bytes. -/
def bytesOf (s : String) : List UInt8 := s.toList.map fun c => UInt8.ofNat c.toNat

def kSlash : UInt8 := 0x2f
def kDot : UInt8 := 0x2e
def kSpace : UInt8 := 0x20
def kDeleted : UInt8 := 0xe5

def toupper (c : UInt8) : UInt8 := if 0x61 ≤ c ∧ c ≤ 0x7a then c - 0x20 else c

/-- The element up to the first slash, what follows the slash, and whether there is one. -/
def nextPathElement (path : List UInt8) : List UInt8 × Option (List UInt8) × Bool :=
  match path.span (· ≠ kSlash) with
  | (elem, []) => (elem, none, false)
  | (elem, _ :: next) => (elem, some next, true)

/-- `strrchr`: what is before and behind the last `c`. -/
def splitLast (c : UInt8) (s : List UInt8) : Option (List UInt8 × List UInt8) :=
  match s.reverse.span (· ≠ c) with
  | (_, []) => none
  | (behind, _ :: before) => some (before.reverse, behind.reverse)

/-- The loop of `NameIsEqual` that fills `name83`. -/
def fillName83 : List UInt8 → Nat → (Nat → UInt8) → Nat → UInt8
  | [], _, name83 => name83
  | c :: name, i83, name83 =>
    if i83 < 11 then
      -- at every dot, a second one included, the extension starts anew
      if c = kDot then fillName83 name 8 name83
      else fillName83 name (i83 + 1) (Function.update name83 i83 (toupper c))
    else name83

/-- The eleven bytes that `SetFileName` stores. -/
def fileName83 (name : List UInt8) (k : Nat) : UInt8 :=
  -- here only the last dot counts
  let (base, ext) := (splitLast kDot name).getD (name, [])
  let char := if k < 8 then base[k]? else ext[k - 8]?
  (char.map toupper).getD kSpace

namespace Volume

def nameIsEqual (v : Volume) (p : EntryPtr) (name : List UInt8) : Bool :=
  (List.range 11).all fun k => v.entryByte p k == fillName83 name 0 (fun _ => kSpace) k

/-- A name part as a C string, without the blanks at its end. -/
def namePart (v : Volume) (p : EntryPtr) (first n : Nat) : List UInt8 :=
  let bytes := (List.range n).map fun k => v.entryByte p (first + k)
  ((bytes.reverse.dropWhile (· = kSpace)).reverse).takeWhile (· ≠ 0)

def formatName (v : Volume) (p : EntryPtr) : List UInt8 :=
  let ext := v.namePart p 8 3
  if ext = [] then v.namePart p 0 8 else v.namePart p 0 8 ++ kDot :: ext

/-- The search of one directory for a path element, from one of its clusters on. -/
def findInDirectory (v : Volume) (elem : List UInt8) : Nat → Nat → Option (Option EntryPtr)
  | 0, _ => none
  | fuel + 1, cluster =>
    if cluster = kEndOfClusterchain then some none
    else if v.IsCluster cluster then
      match (List.range v.entriesPerCluster).find? fun i =>
          v.entryByte ⟨cluster, i⟩ 0 == 0 || v.nameIsEqual ⟨cluster, i⟩ elem with
      | some i => if v.entryByte ⟨cluster, i⟩ 0 = 0 then some none else some (some ⟨cluster, i⟩)
      | none => (v.nextCluster cluster).bind (findInDirectory v elem fuel)
    else none

/-- `FindFile`: the entry, and whether a slash follows the last element looked at. -/
def findFileFrom (v : Volume) : Nat → List UInt8 → Nat → Option (Option EntryPtr × Bool)
  | 0, _, _ => none
  | fuel + 1, path, directoryCluster =>
    let absolute := path.head? = some kSlash
    let directoryCluster :=
      if absolute ∨ directoryCluster = 0 then v.rootCluster else directoryCluster
    let (elem, nextPath, postSlash) := nextPathElement (if absolute then path.tail else path)
    -- `path_elem` has 13 bytes, one of them for the NUL
    if 12 < elem.length then none
    else
      (v.findInDirectory elem (v.numFatEntries + 1) directoryCluster).bind fun
        | none => some (none, postSlash)
        | some p =>
          match nextPath with
          | some (c :: next) =>
            if v.attr p = Attribute.kDirectory.code then
              findFileFrom v fuel (c :: next) (v.firstCluster p)
            -- a file in the middle of a path is returned as well, with the slash
            else some (some p, postSlash)
          | _ => some (some p, postSlash)

def findFile (v : Volume) (path : List UInt8) (directoryCluster : Nat) :
    Option (Option EntryPtr × Bool) :=
  v.findFileFrom (path.length + 1) path directoryCluster

/-- The first entry of a cluster that is unused or deleted. -/
def unusedIn (v : Volume) (cluster : Nat) : Option Nat :=
  (List.range v.entriesPerCluster).find? fun i =>
    v.entryByte ⟨cluster, i⟩ 0 == 0 || v.entryByte ⟨cluster, i⟩ 0 == kDeleted

def allocateEntry (v : Volume) : Nat → Nat → Option (EntryPtr × Volume)
  | 0, _ => none
  | fuel + 1, dirCluster =>
    if v.IsCluster dirCluster then
      match v.unusedIn dirCluster with
      | some i => some (⟨dirCluster, i⟩, v)
      -- no slot in this cluster
      | none => (v.nextCluster dirCluster).bind fun next =>
        if next = kEndOfClusterchain then
          -- only the slots of a new cluster are cleared
          (v.extendCluster dirCluster 1).map fun (cluster, v) =>
            (⟨cluster, 0⟩, v.clearCluster cluster)
        else allocateEntry v fuel next
    else none

def setFileName (v : Volume) (p : EntryPtr) (name : List UInt8) : Volume :=
  v.copyIn p.cluster p.offset (fileName83 name) 11

/-- The part of `CreateFile` after the parent directory is known. -/
def createIn (v : Volume) (dirCluster : Nat) (filename : List UInt8) :
    Option (WithError (Option EntryPtr) × Volume) :=
  (v.allocateEntry (v.numFatEntries + 1) dirCluster).map fun (p, v) =>
    (⟨some p, .kSuccess⟩, (v.setFileName p filename).setFileSize p 0)

/-- The part of `CreateFile` that finds the cluster of the parent directory and the file name. -/
def parentDirectory (v : Volume) (path : List UInt8) : Option (Except Error (Nat × List UInt8)) :=
  match splitLast kSlash path with
  | none => some (.ok (v.rootCluster, path))
  | some (parentDirName, filename) =>
    if filename = [] then some (.error .kIsDirectory)
    else if parentDirName = [] then some (.ok (v.rootCluster, filename))
    else
      (v.findFile parentDirName 0).map fun
        | (none, _) => .error .kNoSuchEntry
        | (some parentDir, _) =>
          if v.attr parentDir ≠ Attribute.kDirectory.code then .error .kIsNotDirectory
          else .ok (v.firstCluster parentDir, filename)

def createFile (v : Volume) (path : List UInt8) :
    Option (WithError (Option EntryPtr) × Volume) :=
  (v.parentDirectory path).bind fun
    | .error err => some (⟨none, err⟩, v)
    | .ok (parentDirCluster, filename) => v.createIn parentDirCluster filename

/-- `(file_entry - 1)->attr`: the entry before the first one of a cluster is the last one of the
cluster that precedes it on the volume. -/
def prevAttr (v : Volume) (p : EntryPtr) : UInt8 :=
  if p.index = 0 then v.data (p.cluster - 1) (v.bytesPerCluster - kEntryBytes + 11)
  else v.attr ⟨p.cluster, p.index - 1⟩

/-- `DeleteFile`: its error and the text left in `err_str`. -/
def deleteFile (v : Volume) (path : List UInt8) : Option ((Error × List UInt8) × Volume) :=
  (v.findFile path 0).bind fun
    | (none, _) => some ((.kInvalidFile, bytesOf "no such file:" ++ path ++ bytesOf "\n"), v)
    | (some p, postSlash) =>
      if v.attr p ≠ Attribute.kDirectory.code ∧ postSlash then
        some ((.kInvalidFile, v.formatName p ++ bytesOf " is not a directory\n"), v)
      else if v.attr p = Attribute.kDirectory.code then
        some ((.kInvalidFile, v.formatName p ++ bytesOf " is  a directory\n"), v)
      else if v.attr p = Attribute.kSystem.code then
        some ((.kInvalidFile, v.formatName p ++ bytesOf " is  a system file\n"), v)
      else if v.prevAttr p = Attribute.kLongName.code then
        some ((.kInvalidFile, v.formatName p ++ bytesOf " is a LNF\n"), v)
      else
        (freeCluster (v.numFatEntries + 1) v (v.firstCluster p)).map fun v =>
          ((.kSuccess, []), v.copyIn p.cluster p.offset (fun _ => kDeleted) 1)

end Volume

end MikanSaos
