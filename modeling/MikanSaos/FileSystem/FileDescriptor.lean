import MikanSaos.FileSystem.Volume

/-!
# FileDescriptor — sequential reads and writes of a file

A buffer is a memory of its own, `Nat → UInt8` from its first byte on.  The loops of `Read` and `Write`
count the bytes copied so far in `total`, and `Write` copies them from the buffer in order: it has read
the buffer up to byte `total`, and no further, when it returns `total`.
-/

namespace MikanSaos

structure FileDescriptor where
  fatEntry : EntryPtr
  rdOff : Nat := 0
  rdCluster : Nat := 0
  rdClusterOff : Nat := 0
  wrOff : Nat := 0
  wrCluster : Nat := 0
  wrClusterOff : Nat := 0
  deriving DecidableEq, Repr

namespace Volume

/-- The loop of `Read` with `remaining` bytes to go: the bytes, and the cluster and the offset in it
where the next `Read` goes on. -/
def readLoop (v : Volume) : Nat → (remaining cluster offset : Nat) →
    Option (List UInt8 × Nat × Nat)
  | _, 0, cluster, offset => some ([], cluster, offset)
  | 0, _ + 1, _, _ => none
  | fuel + 1, remaining + 1, cluster, offset =>
    if v.IsCluster cluster then
      let n := min (remaining + 1) (v.bytesPerCluster - offset)
      let bytes := (List.range n).map fun k => v.data cluster (offset + k)
      let next := if offset + n = v.bytesPerCluster then
        (v.nextCluster cluster).map fun next => (next, 0) else some (cluster, offset + n)
      next.bind fun (cluster, offset) =>
        (readLoop v fuel (remaining + 1 - n) cluster offset).map fun (rest, c) => (bytes ++ rest, c)
    else none

/-- The clusters that the loop of `Read` copies from, in order. -/
def readLoopClusters (v : Volume) : Nat → (remaining cluster offset : Nat) → List Nat
  | _, 0, _, _ => []
  | 0, _ + 1, _, _ => []
  | fuel + 1, remaining + 1, cluster, offset =>
    let n := min (remaining + 1) (v.bytesPerCluster - offset)
    let next := if offset + n = v.bytesPerCluster then
      (v.nextCluster cluster).map fun next => (next, 0) else some (cluster, offset + n)
    cluster :: match next with
      | some (cluster, offset) => readLoopClusters v fuel (remaining + 1 - n) cluster offset
      | none => []

/-- The loop of `Load`: the offset in a cluster, and the cluster. -/
def loadLoop (v : Volume) : Nat → (offset cluster : Nat) → Option (Nat × Nat)
  | 0, offset, cluster => if v.bytesPerCluster ≤ offset then none else some (offset, cluster)
  | fuel + 1, offset, cluster =>
    if v.bytesPerCluster ≤ offset then
      (v.nextCluster cluster).bind fun next =>
        loadLoop v fuel (offset - v.bytesPerCluster) next
    else some (offset, cluster)

def numCluster (v : Volume) (bytes : Nat) : Nat :=
  (bytes + v.bytesPerCluster - 1) / v.bytesPerCluster

/-- The first part of `Write`: find or make the cluster to write to. -/
def startWrite (v : Volume) (fd : FileDescriptor) (len : Nat) : Option (Nat × Volume) :=
  if fd.wrCluster = 0 then
    if v.firstCluster fd.fatEntry ≠ 0 then some (v.firstCluster fd.fatEntry, v)
    else (v.allocateClusterChain (v.numCluster len)).map fun (cluster, v) =>
      (cluster, v.setFirstCluster fd.fatEntry cluster)
  else some (fd.wrCluster, v)

/-- The start of the loop body of `Write`: move on from a full cluster, to a new one if need be. -/
def advanceWrite (v : Volume) (bytesLeft cluster offset : Nat) : Option ((Nat × Nat) × Volume) :=
  if offset = v.bytesPerCluster then
    (v.nextCluster cluster).bind fun next =>
      if next = kEndOfClusterchain then
        (v.extendCluster cluster (v.numCluster bytesLeft)).map fun (cluster, v) => ((cluster, 0), v)
      else some ((next, 0), v)
  else some ((cluster, offset), v)

/-- The loop of `Write`.  The number of bytes copied at a time is `min(len, …)`, as in the source,
and not limited to the `len - total` bytes left. -/
def writeLoop (buf : Nat → UInt8) (len : Nat) : Nat → Volume → (total cluster offset : Nat) →
    Option ((Nat × Nat × Nat) × Volume)
  | 0, v, total, cluster, offset =>
    if total < len then none else some ((total, cluster, offset), v)
  | fuel + 1, v, total, cluster, offset =>
    if total < len then
      (v.advanceWrite (len - total) cluster offset).bind fun ((cluster, offset), v) =>
        if v.IsCluster cluster then
          let n := min len (v.bytesPerCluster - offset)
          writeLoop buf len fuel (v.copyIn cluster offset (fun k => buf (total + k)) n) (total + n)
            cluster (offset + n)
        else none
    else some ((total, cluster, offset), v)

end Volume

namespace FileDescriptor

/-- `FileDescriptor{entry}` -/
def new (p : EntryPtr) : FileDescriptor := { fatEntry := p }

def read (fd : FileDescriptor) (v : Volume) (len : Nat) : Option (List UInt8 × FileDescriptor) :=
  let rdCluster := if fd.rdCluster = 0 then v.firstCluster fd.fatEntry else fd.rdCluster
  let len := min len (sub64 (v.fileSize fd.fatEntry) fd.rdOff)
  (v.readLoop len len rdCluster fd.rdClusterOff).map fun (bytes, rdCluster, rdClusterOff) =>
    (bytes, { fd with rdOff := fd.rdOff + bytes.length, rdCluster := rdCluster,
                      rdClusterOff := rdClusterOff })

/-- The clusters that `Read` copies from. -/
def readClusters (fd : FileDescriptor) (v : Volume) (len : Nat) : List Nat :=
  let rdCluster := if fd.rdCluster = 0 then v.firstCluster fd.fatEntry else fd.rdCluster
  let len := min len (sub64 (v.fileSize fd.fatEntry) fd.rdOff)
  v.readLoopClusters len len rdCluster fd.rdClusterOff

/-- The descriptor that `Load` makes for itself, once the cluster of the offset is found. -/
def loadDescriptor (fd : FileDescriptor) (v : Volume) (offset : Nat) : Option FileDescriptor :=
  (v.loadLoop offset offset (v.firstCluster fd.fatEntry)).map fun (rdClusterOff, rdCluster) =>
    { new fd.fatEntry with rdOff := offset, rdCluster := rdCluster, rdClusterOff := rdClusterOff }

/-- `Load`: the bytes, and the descriptor it is called on. -/
def load (fd : FileDescriptor) (v : Volume) (len offset : Nat) :
    Option (List UInt8 × FileDescriptor) :=
  (fd.loadDescriptor v offset).bind fun g => (g.read v len).map fun (bytes, _) => (bytes, fd)

def write (fd : FileDescriptor) (v : Volume) (buf : Nat → UInt8) (len : Nat) :
    Option (Nat × FileDescriptor × Volume) :=
  (v.startWrite fd len).bind fun (wrCluster, v) =>
    (Volume.writeLoop buf len len v 0 wrCluster fd.wrClusterOff).map
      fun ((total, wrCluster, wrClusterOff), v) =>
        (total, { fd with wrOff := fd.wrOff + total, wrCluster := wrCluster,
                          wrClusterOff := wrClusterOff },
          v.setFileSize fd.fatEntry (fd.wrOff + total))

end FileDescriptor

end MikanSaos
