import Mathlib.Data.Nat.Init
import Mathlib.Tactic.Ring

/-!
# Stream — what a descriptor writes to, seen from above

A file is an array of clusters without numbers: byte `q` of the file is byte `q % b` of its cluster
`q / b`, for clusters of `b` bytes.  `content` also covers the clusters that the file will get when it
grows, with the bytes they happen to hold.  The cursor is in cluster `index` at `offset`.
-/

namespace MikanSaos

/-- `num_cluster` of `Write` -/
def clustersFor (b bytes : Nat) : Nat := (bytes + b - 1) / b

structure Stream where
  clusters : Nat
  index : Nat
  offset : Nat
  content : Nat → UInt8

namespace Stream

/-- Leave a full cluster for the next one, or for the last one of the clusters added. -/
def advance (b : Nat) (s : Stream) (bytesLeft : Nat) : Stream :=
  if s.offset = b then
    if s.index + 1 < s.clusters then { s with index := s.index + 1, offset := 0 }
    else { s with clusters := s.clusters + clustersFor b bytesLeft,
                  index := s.clusters + clustersFor b bytesLeft - 1, offset := 0 }
  else s

def position (b : Nat) (s : Stream) : Nat := s.index * b + s.offset

def put (b : Nat) (s : Stream) (src : Nat → UInt8) (n : Nat) : Stream :=
  { s with offset := s.offset + n,
           content := fun q =>
             if s.position b ≤ q ∧ q < s.position b + n then src (q - s.position b)
             else s.content q }

def writeLoop (b : Nat) (buf : Nat → UInt8) (len : Nat) : Nat → Nat → Stream → Nat × Stream
  | 0, total, s => (total, s)
  | fuel + 1, total, s =>
    if total < len then
      let s := s.advance b (len - total)
      let n := min len (b - s.offset)
      writeLoop b buf len fuel (total + n) (s.put b (fun k => buf (total + k)) n)
    else (total, s)

/-- The chain that the first `Write` to an empty file makes. -/
def start (b : Nat) (content : Nat → UInt8) (len : Nat) : Stream :=
  ⟨max 1 (clustersFor b len), 0, 0, content⟩

variable {b : Nat} {buf : Nat → UInt8} {len : Nat} {s : Stream}

theorem clustersFor_pos (hb : 0 < b) (hlen : 0 < len) : 0 < clustersFor b len :=
  Nat.div_pos (by omega) hb

/-- The cursor is in a cluster of the file, not behind its end. -/
structure Ok (b : Nat) (s : Stream) : Prop where
  index_lt : s.index < s.clusters
  offset_le : s.offset ≤ b

theorem Ok.start (b : Nat) (content : Nat → UInt8) (len : Nat) : (start b content len).Ok b :=
  ⟨by unfold Stream.start; dsimp only; omega, Nat.zero_le _⟩

theorem Ok.advance (h : s.Ok b) (hb : 0 < b) {left : Nat} (hleft : 0 < left) :
    (s.advance b left).Ok b ∧ (s.advance b left).offset < b := by
  have hpos := clustersFor_pos hb hleft
  have hindex := h.index_lt
  have hoffset := h.offset_le
  unfold Stream.advance
  split
  · split
    · exact ⟨⟨by assumption, Nat.zero_le _⟩, hb⟩
    · exact ⟨⟨by dsimp only; omega, Nat.zero_le _⟩, hb⟩
  · exact ⟨h, by omega⟩

theorem Ok.put (h : s.Ok b) (src : Nat → UInt8) {n : Nat} (hn : s.offset + n ≤ b) :
    (s.put b src n).Ok b := ⟨h.index_lt, hn⟩

/-- The file only grows, and the cursor only moves forward. -/
theorem advance_mono (s : Stream) (b left : Nat) :
    s.clusters ≤ (s.advance b left).clusters ∧
      (s.index < s.clusters → s.index ≤ (s.advance b left).index) := by
  unfold Stream.advance
  split
  · split
    · exact ⟨Nat.le_refl _, fun _ => Nat.le_succ _⟩
    · exact ⟨Nat.le_add_right _ _, fun h => by dsimp only; omega⟩
  · exact ⟨Nat.le_refl _, fun _ => Nat.le_refl _⟩

variable (buf len) in
theorem writeLoop_clusters (fuel total : Nat) (s : Stream) :
    s.clusters ≤ (writeLoop b buf len fuel total s).2.clusters := by
  induction fuel generalizing total s with
  | zero => exact Nat.le_refl _
  | succ fuel ih =>
    rw [writeLoop]
    split
    · exact Nat.le_trans (advance_mono s b _).1 (ih _ ((s.advance b (len - total)).put b _ _))
    · exact Nat.le_refl _

end Stream

end MikanSaos
