import MikanSaos.Reasoning.LittleEndian
import MikanSaos.Word64
import Mathlib.Logic.Function.Basic

/-!
# Volume — the boot volume image, its FAT and its directory entries

The FAT and the data clusters are separate memories, `fat` and `data`: `data c k` is byte `k` of
cluster `c`.  An operation is `none` where the code leaves the FAT or the clusters that the FAT
describes: it reads or writes behind their end, or walks round a cycle for ever.
-/

open Reasoning

namespace MikanSaos

structure Volume where
  bytesPerCluster : Nat
  /-- The cells of the FAT; clusters count from 2. -/
  numFatEntries : Nat
  rootCluster : Nat
  fat : Nat → Nat
  data : Nat → Nat → UInt8

inductive Attribute where
  | kReadOnly | kHidden | kSystem | kVolumeID | kDirectory | kArchive | kLongName
  deriving DecidableEq, Repr

def Attribute.code : Attribute → UInt8
  | kReadOnly => 0x01
  | kHidden => 0x02
  | kSystem => 0x04
  | kVolumeID => 0x08
  | kDirectory => 0x10
  | kArchive => 0x20
  | kLongName => 0x0f

/-- `sizeof(DirectoryEntry)` -/
def kEntryBytes : Nat := 32

/-- A `DirectoryEntry*`: entry `index` of a cluster. -/
structure EntryPtr where
  cluster : Nat
  index : Nat
  deriving DecidableEq, Repr

def EntryPtr.offset (p : EntryPtr) : Nat := kEntryBytes * p.index

def kEndOfClusterchain : Nat := 0x0fffffff

def isEndOfClusterchain (cluster : Nat) : Bool := 0x0ffffff8 ≤ cluster

namespace Volume

/-- A cluster of the data area. -/
def IsCluster (v : Volume) (cluster : Nat) : Prop := 2 ≤ cluster ∧ cluster < v.numFatEntries

instance (v : Volume) (cluster : Nat) : Decidable (v.IsCluster cluster) :=
  inferInstanceAs (Decidable (_ ∧ _))

def entriesPerCluster (v : Volume) : Nat := v.bytesPerCluster / kEntryBytes

/-! ## The FAT -/

/-- `GetFAT()[cluster]` -/
def getFAT (v : Volume) (cluster : Nat) : Option Nat :=
  if cluster < v.numFatEntries then some (v.fat cluster) else none

/-- `GetFAT()[cluster] = value`, a 32-bit cell. -/
def setFAT (v : Volume) (cluster value : Nat) : Volume :=
  { v with fat := Function.update v.fat cluster (value % 2 ^ 32) }

def nextCluster (v : Volume) (cluster : Nat) : Option Nat :=
  (v.getFAT cluster).map fun next =>
    -- every end mark becomes the one that the callers compare with
    if isEndOfClusterchain next then kEndOfClusterchain else next

/-- The first loop of `ExtendCluster`: walk to the end of the chain. -/
def lastCluster (v : Volume) : Nat → Nat → Option Nat
  | 0, _ => none
  | fuel + 1, cluster => (v.getFAT cluster).bind fun next =>
    if isEndOfClusterchain next then some cluster else lastCluster v fuel next

/-- The second loop of `ExtendCluster`: link the next `n` free clusters behind `current`, looking at
`candidate` and the `fuel` cells from there on. -/
def linkFree : Nat → Volume → (candidate current n : Nat) → Option (Nat × Volume)
  | _, v, _, current, 0 => some (current, v)
  -- the source has no bound here: it goes on behind the end of the FAT
  | 0, _, _, _, _ + 1 => none
  | fuel + 1, v, candidate, current, n + 1 =>
    if v.fat candidate ≠ 0 then linkFree fuel v (candidate + 1) current (n + 1)
    else linkFree fuel (v.setFAT current candidate) (candidate + 1) candidate n

def extendCluster (v : Volume) (eocCluster n : Nat) : Option (Nat × Volume) :=
  (v.lastCluster v.numFatEntries eocCluster).bind fun eocCluster =>
    (linkFree (v.numFatEntries - 2) v 2 eocCluster n).map fun (current, v) =>
      (current, v.setFAT current kEndOfClusterchain)

def freeCluster : Nat → Volume → Nat → Option Volume
  | 0, _, _ => none
  | fuel + 1, v, cluster => (v.getFAT cluster).bind fun next =>
    -- a cell of 0 ends the chain as well; a cell is cleared after those behind it
    if isEndOfClusterchain next ∨ next = 0 then some (v.setFAT cluster 0)
    else (freeCluster fuel v next).map (·.setFAT cluster 0)

/-- The loop of `AllocateClusterChain`: the first free cluster from `candidate` on. -/
def firstFree (v : Volume) : Nat → Nat → Option Nat
  | 0, _ => none
  | fuel + 1, candidate =>
    if v.fat candidate = 0 then some candidate else firstFree v fuel (candidate + 1)

def allocateClusterChain (v : Volume) (n : Nat) : Option (Nat × Volume) :=
  (v.firstFree (v.numFatEntries - 2) 2).bind fun firstCluster =>
    let v := v.setFAT firstCluster kEndOfClusterchain
    if 1 < n then (v.extendCluster firstCluster (n - 1)).map fun (_, v) => (firstCluster, v)
    else some (firstCluster, v)

/-! ## Bytes and directory entries -/

def setCluster (v : Volume) (cluster : Nat) (bytes : Nat → UInt8) : Volume :=
  { v with data := Function.update v.data cluster bytes }

@[simp] theorem setCluster_self (v : Volume) (cluster : Nat) (bytes : Nat → UInt8) :
    (v.setCluster cluster bytes).data cluster = bytes := Function.update_self ..

theorem setCluster_of_ne (v : Volume) (bytes : Nat → UInt8) {c cluster : Nat} (h : c ≠ cluster) :
    (v.setCluster cluster bytes).data c = v.data c := Function.update_of_ne h ..

/-- `memcpy` of the first `n` bytes of `src` into a cluster. -/
def copyIn (v : Volume) (cluster offset : Nat) (src : Nat → UInt8) (n : Nat) : Volume :=
  v.setCluster cluster fun k =>
    if offset ≤ k ∧ k < offset + n then src (k - offset) else v.data cluster k

/-- `memset(dir, 0, bytes_per_cluster)` -/
def clearCluster (v : Volume) (cluster : Nat) : Volume :=
  v.setCluster cluster fun k => if k < v.bytesPerCluster then 0 else v.data cluster k

/-- Byte `k` of an entry; the first eleven are its name. -/
def entryByte (v : Volume) (p : EntryPtr) (k : Nat) : UInt8 := v.data p.cluster (p.offset + k)

def attr (v : Volume) (p : EntryPtr) : UInt8 := v.entryByte p 11

def firstCluster (v : Volume) (p : EntryPtr) : Nat :=
  -- the low half is behind the high half
  readLE (v.data p.cluster) (p.offset + 26) 2 |||
    readLE (v.data p.cluster) (p.offset + 20) 2 <<< 16

def fileSize (v : Volume) (p : EntryPtr) : Nat := readLE (v.data p.cluster) (p.offset + 28) 4

def setField (v : Volume) (p : EntryPtr) (field n value : Nat) : Volume :=
  v.setCluster p.cluster (writeLE (v.data p.cluster) (p.offset + field) n value)

def setFirstCluster (v : Volume) (p : EntryPtr) (cluster : Nat) : Volume :=
  (v.setField p 26 2 (cluster &&& 0xffff)).setField p 20 2 (cluster >>> 16 &&& 0xffff)

def setFileSize (v : Volume) (p : EntryPtr) (size : Nat) : Volume := v.setField p 28 4 size

end Volume

end MikanSaos
