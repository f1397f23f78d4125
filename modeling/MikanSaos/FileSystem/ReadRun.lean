import MikanSaos.FileSystem.Directory
import MikanSaos.FileSystem.ReadStream

/-!
# ReadRun — successive reads, and random access

`Read` calls on one descriptor return the file piece by piece.  `Load` finds its cluster by another loop
and returns what the reads would have returned at the same position.
-/

open Reasoning

namespace MikanSaos

open Volume

namespace FileDescriptor

/-- Successive `Read` calls on one descriptor. -/
def readAll (fd : FileDescriptor) (v : Volume) : List Nat → Option (List (List UInt8) × FileDescriptor)
  | [] => some ([], fd)
  | len :: lens => (fd.read v len).bind fun (bytes, fd) =>
    (readAll fd v lens).map fun (pieces, fd) => (bytes :: pieces, fd)

/-- The clusters that the calls copy from. -/
def readAllClusters (fd : FileDescriptor) (v : Volume) : List Nat → List Nat
  | [] => []
  | len :: lens => fd.readClusters v len ++ match fd.read v len with
    | some (_, fd) => readAllClusters fd v lens
    | none => []

end FileDescriptor

/-- The lengths of the pieces, when `left` bytes are there to be read. -/
def readCounts : Nat → List Nat → List Nat
  | _, [] => []
  | left, len :: lens => min len left :: readCounts (left - min len left) lens

theorem readCounts_sum_le (left : Nat) (lens : List Nat) : (readCounts left lens).sum ≤ left := by
  induction lens generalizing left with
  | nil => exact Nat.zero_le left
  | cons len lens ih =>
    have hrest := ih (left - min len left)
    rw [readCounts, List.sum_cons]
    omega

namespace Volume

variable {v : Volume} {p : EntryPtr} {l : List Nat} {fd : FileDescriptor}

/-- The pieces follow each other in the file, and the descriptor stands behind the last of them. -/
theorem ReadPosition.readAll (hfd : v.ReadPosition p l fd) (hmax : v.numFatEntries ≤ kMaxFatEntries)
    (hb : 0 < v.bytesPerCluster) (h : v.FileChain p l)
    (hcover : v.fileSize p ≤ l.length * v.bytesPerCluster) (hle : fd.rdOff ≤ v.fileSize p)
    (lens : List Nat) :
    ∃ pieces fd', fd.readAll v lens = some (pieces, fd') ∧
      pieces.map List.length = readCounts (v.fileSize p - fd.rdOff) lens ∧
      pieces.flatten = v.bytesAt l fd.rdOff (readCounts (v.fileSize p - fd.rdOff) lens).sum ∧
      v.ReadPosition p l fd' ∧ fd'.rdOff = fd.rdOff + pieces.flatten.length ∧
      fd'.rdOff ≤ v.fileSize p ∧ ∀ x ∈ fd.readAllClusters v lens, x ∈ l := by
  induction lens generalizing fd with
  | nil => exact ⟨[], fd, rfl, rfl, rfl, hfd, rfl, hle, fun x hx => by cases hx⟩
  | cons len lens ih =>
    obtain ⟨fd₁, hread, hfd₁, hoff, hin⟩ := hfd.read hmax hb h hcover hle len
    obtain ⟨pieces, fd', hrest, hcounts, hbytes, hfd', hoff', hle', hin'⟩ := ih hfd₁ (by omega)
    have hleft : v.fileSize p - fd₁.rdOff =
        v.fileSize p - fd.rdOff - min len (v.fileSize p - fd.rdOff) := by omega
    -- what is left for the other calls is what this one has not taken
    rw [hleft] at hcounts hbytes
    rw [FileDescriptor.readAll, FileDescriptor.readAllClusters, hread, Option.bind_some]
    dsimp only
    rw [hrest, Option.map_some]
    refine ⟨_, fd', rfl, ?_, ?_, hfd', ?_, hle', ?_⟩
    · rw [List.map_cons, bytesAt_length, hcounts, readCounts]
    · rw [List.flatten_cons, hbytes, readCounts, List.sum_cons, bytesAt_add, hoff]
    · rw [List.flatten_cons, List.length_append, bytesAt_length, hoff', hoff, Nat.add_assoc]
    · intro x hx
      exact (List.mem_append.mp hx).elim (hin x) (hin' x)

end Volume

/-- **Reads return the file in order.**  On a file of a whole chain, each `Read` returns as many bytes as it
is asked for or as are left; the pieces, one behind the other, are the beginning of the file; and nothing
is read from outside its chain. -/
theorem read_sequence {v : Volume} {p : EntryPtr} {l : List Nat} (hb : 0 < v.bytesPerCluster)
    (hmax : v.numFatEntries ≤ kMaxFatEntries) (h : v.FileChain p l)
    (hcover : v.fileSize p ≤ l.length * v.bytesPerCluster) (lens : List Nat) :
    ∃ pieces fd, (FileDescriptor.new p).readAll v lens = some (pieces, fd) ∧
      pieces.map List.length = readCounts (v.fileSize p) lens ∧
      pieces.flatten <+: v.fileBytes p l ∧
      ∀ x ∈ (FileDescriptor.new p).readAllClusters v lens, x ∈ l := by
  obtain ⟨pieces, fd, hread, hcounts, hbytes, -, -, -, hin⟩ :=
    (ReadPosition.new v p l).readAll hmax hb h hcover (Nat.zero_le _) lens
  refine ⟨pieces, fd, hread, hcounts, ?_, hin⟩
  -- the rest of the file follows the pieces
  have hle := readCounts_sum_le (v.fileSize p) lens
  rw [hbytes]
  exact ⟨v.bytesAt l (readCounts (v.fileSize p) lens).sum
    (v.fileSize p - (readCounts (v.fileSize p) lens).sum), by
      have hadd := v.bytesAt_add l 0 (readCounts (v.fileSize p) lens).sum
        (v.fileSize p - (readCounts (v.fileSize p) lens).sum)
      rw [Nat.add_sub_cancel' hle, Nat.zero_add] at hadd
      exact hadd.symm⟩

/-- A volume with a file of 40 bytes in the clusters 3 and 5. -/
def twoClusterVolume : Volume where
  bytesPerCluster := 32
  numFatEntries := 8
  rootCluster := 2
  fat c := if c = 3 then 5 else if c < 6 ∧ c ≠ 4 then kEndOfClusterchain else 0
  data c k :=
    if c = 2 then
      (bytesOf "A          " ++ Attribute.kArchive.code :: List.replicate 14 0 ++ [3, 0, 40]).getD k 0
    else UInt8.ofNat (c + k)

theorem twoClusterVolume_chain : twoClusterVolume.FileChain ⟨2, 0⟩ [3, 5] :=
  .inr ⟨.link (by decide) (.last (by decide)), by decide⟩

theorem read_sequence_two_clusters :
    ∃ pieces fd, (FileDescriptor.new ⟨2, 0⟩).readAll twoClusterVolume [30, 0, 20] = some (pieces, fd) ∧
      pieces.map List.length = readCounts (twoClusterVolume.fileSize ⟨2, 0⟩) [30, 0, 20] ∧
      pieces.flatten <+: twoClusterVolume.fileBytes ⟨2, 0⟩ [3, 5] ∧
      ∀ x ∈ (FileDescriptor.new ⟨2, 0⟩).readAllClusters twoClusterVolume [30, 0, 20], x ∈ [3, 5] :=
  read_sequence (by decide) (by decide) twoClusterVolume_chain (by decide) [30, 0, 20]

/-- `Load` at an offset in the file, or at its end. -/
theorem FileDescriptor.load_eq {v : Volume} {p : EntryPtr} {l : List Nat} (hb : 0 < v.bytesPerCluster)
    (hmax : v.numFatEntries ≤ kMaxFatEntries) (h : v.FileChain p l)
    (hcover : v.fileSize p ≤ l.length * v.bytesPerCluster) {fd : FileDescriptor}
    (hfd : fd.fatEntry = p) {offset : Nat} (hoffset : offset ≤ v.fileSize p) (len : Nat) :
    fd.load v len offset = some (v.bytesAt l offset (min len (v.fileSize p - offset)), fd) := by
  obtain ⟨g, hload, hpos, hoff⟩ := ReadPosition.load hfd hmax hb h (Nat.le_trans hoffset hcover)
  obtain ⟨g', hread, -⟩ := hpos.read hmax hb h hcover (by omega) len
  rw [FileDescriptor.load, hload, Option.bind_some, hread, hoff]
  rfl

/-- **`Load` agrees with `Read`.**  At an offset inside the file or at its end, `Load` returns the bytes that
`Read` returns on a descriptor which has read up to the offset, and leaves its own descriptor alone. -/
theorem load_agrees {v : Volume} {p : EntryPtr} {l : List Nat} (hb : 0 < v.bytesPerCluster)
    (hmax : v.numFatEntries ≤ kMaxFatEntries) (h : v.FileChain p l)
    (hcover : v.fileSize p ≤ l.length * v.bytesPerCluster) {fd : FileDescriptor}
    (hfd : fd.fatEntry = p) {offset : Nat} (hoffset : offset ≤ v.fileSize p) (len : Nat) :
    ∃ bytes, fd.load v len offset = some (bytes, fd) ∧ ∀ lens pieces g,
      (FileDescriptor.new p).readAll v lens = some (pieces, g) → pieces.flatten.length = offset →
        ∃ g', g.read v len = some (bytes, g') := by
  -- both readers have the position `offset`, and `Read` depends on nothing else
  refine ⟨_, FileDescriptor.load_eq hb hmax h hcover hfd hoffset len, fun lens pieces g hall hlength => ?_⟩
  obtain ⟨pieces', g', hall', -, -, hpos, hoff, -⟩ :=
    (ReadPosition.new v p l).readAll hmax hb h hcover (Nat.zero_le _) lens
  cases hall.symm.trans hall'
  have hat : g.rdOff = offset := hoff.trans ((Nat.zero_add _).trans hlength)
  obtain ⟨g', hread', -⟩ := hpos.read hmax hb h hcover (by omega) len
  rw [hat] at hread'
  exact ⟨g', hread'⟩

theorem load_agrees_two_clusters :
    ∃ bytes, (FileDescriptor.new ⟨2, 0⟩).load twoClusterVolume 20 32 =
        some (bytes, FileDescriptor.new ⟨2, 0⟩) ∧
      ∀ lens pieces g, (FileDescriptor.new ⟨2, 0⟩).readAll twoClusterVolume lens = some (pieces, g) →
        pieces.flatten.length = 32 → ∃ g', g.read twoClusterVolume 20 = some (bytes, g') :=
  load_agrees (by decide) (by decide) twoClusterVolume_chain (by decide) rfl (by decide) 20

end MikanSaos
