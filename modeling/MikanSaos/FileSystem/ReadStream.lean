import MikanSaos.FileSystem.WriteStream

/-!
# ReadStream — `Read` and `Load` on a file that does not change

A descriptor keeps its position three times: as the number of bytes read, as a cluster and as an offset in
that cluster.  `ReadPosition` says how the three agree; behind the last byte of the last cluster the
cluster is the end mark, which is never read from.
-/

open Reasoning

namespace MikanSaos

theorem sub64_of_le {a b : Nat} (hle : b ≤ a) (hlt : a < 2 ^ 64) : sub64 a b = a - b := by
  unfold sub64
  omega

/-! ## Positions in an array of clusters -/

section Positions

variable {b pos n : Nat}

theorem position_next (hb : 0 < b) (h : pos % b + n = b) :
    (pos + n) / b = pos / b + 1 ∧ (pos + n) % b = 0 := by
  have hpos : pos + n = b * (pos / b + 1) := by
    have hdiv := Nat.div_add_mod pos b
    rw [Nat.mul_succ]
    omega
  rw [hpos]
  exact ⟨Nat.mul_div_cancel_left _ hb, Nat.mul_mod_right b _⟩

theorem position_same (h : pos % b + n < b) :
    (pos + n) / b = pos / b ∧ (pos + n) % b = pos % b + n := by
  have hpos : pos + n = b * (pos / b) + (pos % b + n) := by
    have hdiv := Nat.div_add_mod pos b
    omega
  rw [hpos, Nat.mul_add_div (by omega), Nat.div_eq_of_lt h, Nat.mul_add_mod, Nat.mod_eq_of_lt h]
  exact ⟨rfl, rfl⟩

end Positions

namespace Volume

/-- `n` bytes of the clusters `l` from position `pos` on. -/
def bytesAt (v : Volume) (l : List Nat) (pos n : Nat) : List UInt8 :=
  (List.range n).map fun k => v.contentOf l (pos + k)

/-- The bytes of the file that has the clusters `l`. -/
def fileBytes (v : Volume) (p : EntryPtr) (l : List Nat) : List UInt8 := v.bytesAt l 0 (v.fileSize p)

variable {v : Volume} {b first x pos n : Nat} {l : List Nat} {p : EntryPtr}

@[simp] theorem bytesAt_length (v : Volume) (l : List Nat) (pos n : Nat) :
    (v.bytesAt l pos n).length = n := by simp [bytesAt]

theorem bytesAt_add (v : Volume) (l : List Nat) (pos n m : Nat) :
    v.bytesAt l pos (n + m) = v.bytesAt l pos n ++ v.bytesAt l (pos + n) m := by
  unfold bytesAt
  rw [List.range_add, List.map_append, List.map_map]
  congr 1
  apply List.map_congr_left
  intro k _
  simp only [Function.comp_apply, Nat.add_assoc]

theorem fileSize_lt (v : Volume) (p : EntryPtr) : v.fileSize p < 2 ^ 32 := readLE_lt _ _ 4

/-- Where a walk along the chain stands at position `pos`. -/
def StandsAt (b : Nat) (l : List Nat) (pos x : Nat) : Prop :=
  l[pos / b]? = some x ∨ x = kEndOfClusterchain ∧ pos = l.length * b

theorem StandsAt.getElem? (h : StandsAt b l pos x) (hlt : pos < l.length * b) :
    l[pos / b]? = some x ∧ pos / b < l.length :=
  ⟨h.resolve_right fun hend => by omega, Nat.div_lt_of_lt_mul (by rwa [Nat.mul_comm] at hlt)⟩

/-- Behind the last byte of a cluster the walk goes on to the next cluster, or to the end mark. -/
theorem StandsAt.next (hmax : v.numFatEntries ≤ kMaxFatEntries) (h : v.ClusterChain first l) {j : Nat}
    (hb : 0 < b) (hj : l[j]? = some x) :
    ∃ y, v.nextCluster x = some y ∧ StandsAt b l ((j + 1) * b) y := by
  obtain ⟨hnext, -⟩ := nextCluster_eq hmax h hj
  refine ⟨_, hnext, ?_⟩
  have hlt := (List.getElem?_eq_some_iff.mp hj).1
  unfold StandsAt
  rw [Nat.mul_div_cancel _ hb]
  by_cases hlast : j + 1 < l.length
  · rw [List.getElem?_eq_getElem hlast]
    exact .inl rfl
  · rw [List.getElem?_eq_none (by omega)]
    exact .inr ⟨rfl, by rw [show j + 1 = l.length by omega]⟩

/-! ## The loops -/

/-- The loop of `Read` copies the bytes from its position on, from clusters of the chain only. -/
theorem readLoop_spec {content : Nat → UInt8} (hmax : v.numFatEntries ≤ kMaxFatEntries)
    (hb : 0 < b) (hbytes : v.bytesPerCluster = b) (h : v.ClusterChain first l)
    (hcontent : v.Contents b l content) (fuel remaining pos x : Nat) (hfuel : remaining ≤ fuel)
    (hroom : pos + remaining ≤ l.length * b) (hx : StandsAt b l pos x) :
    ∃ x', v.readLoop fuel remaining x (pos % b) =
        some ((List.range remaining).map fun k => content (pos + k), x', (pos + remaining) % b) ∧
      StandsAt b l (pos + remaining) x' ∧
      ∀ y ∈ v.readLoopClusters fuel remaining x (pos % b), y ∈ l := by
  induction fuel generalizing remaining pos x with
  | zero =>
    obtain rfl : remaining = 0 := by omega
    exact ⟨x, rfl, hx, fun y hy => by cases hy⟩
  | succ fuel ih =>
    cases remaining with
    | zero => exact ⟨x, rfl, hx, fun y hy => by cases hy⟩
    | succ remaining =>
      -- there are bytes left, so that the walk is not at the end mark yet
      obtain ⟨hget, hlt⟩ := hx.getElem? (by omega)
      have hmem := List.mem_of_getElem? hget
      have hmod := Nat.mod_lt pos hb
      have hdiv := Nat.div_add_mod pos b
      rw [readLoop, readLoopClusters, if_pos (h.valid x hmem).1, hbytes]
      dsimp only
      generalize hn : min (remaining + 1) (b - pos % b) = n
      -- this round copies `n` bytes from the cluster `x`
      have hhere : (List.range n).map (fun k => v.data x (pos % b + k)) =
          (List.range n).map fun k => content (pos + k) := by
        apply List.map_congr_left
        intro k hk
        rw [List.mem_range] at hk
        rw [hcontent _ x hget (pos % b + k) (by omega)]
        congr 1
        rw [Nat.mul_comm]
        omega
      have hsplit : (List.range (remaining + 1)).map (fun k => content (pos + k)) =
          (List.range n).map (fun k => content (pos + k)) ++
            (List.range (remaining + 1 - n)).map fun k => content (pos + n + k) := by
        rw [show remaining + 1 = n + (remaining + 1 - n) by omega, List.range_add, List.map_append,
          List.map_map, Nat.add_sub_cancel_left]
        congr 1
        apply List.map_congr_left
        intro k _
        simp only [Function.comp_apply, Nat.add_assoc]
      rw [hhere, hsplit]
      by_cases hfull : pos % b + n = b
      · -- the rest of the cluster is read; the walk goes on to the next one
        obtain ⟨hdiv', hmod'⟩ := position_next hb hfull
        obtain ⟨y, hnext, hy⟩ := StandsAt.next hmax h hb hget
        have hpos : (pos / b + 1) * b = pos + n := by
          rw [Nat.succ_mul, Nat.mul_comm]
          omega
        obtain ⟨x', hrest, hx', hin⟩ := ih (remaining + 1 - n) (pos + n) y (by omega) (by omega)
          (hpos ▸ hy)
        rw [hmod'] at hrest hin
        rw [show pos + n + (remaining + 1 - n) = pos + (remaining + 1) by omega] at hrest hx'
        rw [if_pos hfull, hnext, Option.map_some, Option.bind_some]
        dsimp only
        rw [hrest, Option.map_some]
        exact ⟨x', rfl, hx', fun z hz => (List.mem_cons.mp hz).elim (fun hz => hz ▸ hmem) (hin z)⟩
      · -- the bytes end in this cluster
        have hdone : remaining + 1 - n = 0 := by omega
        obtain ⟨hdiv', hmod'⟩ := position_same (show pos % b + n < b by omega)
        rw [if_neg hfull, Option.bind_some, hdone]
        dsimp only
        have hstop : v.readLoop fuel 0 x (pos % b + n) = some ([], x, pos % b + n) := by
          cases fuel <;> rfl
        have hnone : v.readLoopClusters fuel 0 x (pos % b + n) = [] := by
          cases fuel <;> rfl
        rw [hstop, hnone, Option.map_some, show pos + (remaining + 1) = pos + n by omega, hmod']
        refine ⟨x, rfl, .inl ?_, fun z hz => List.mem_singleton.mp hz ▸ hmem⟩
        rw [hdiv']
        exact hget

theorem not_isCluster_end (hmax : v.numFatEntries ≤ kMaxFatEntries) :
    ¬ v.IsCluster kEndOfClusterchain := by
  unfold IsCluster kEndOfClusterchain
  unfold kMaxFatEntries at hmax
  omega

/-- At the end mark there is nothing to be read. -/
theorem readLoop_end (hmax : v.numFatEntries ≤ kMaxFatEntries) (fuel offset : Nat) {remaining : Nat}
    (h : 0 < remaining) : v.readLoop fuel remaining kEndOfClusterchain offset = none := by
  obtain ⟨remaining, rfl⟩ : ∃ r, remaining = r + 1 := ⟨remaining - 1, by omega⟩
  cases fuel with
  | zero => rfl
  | succ fuel => rw [readLoop, if_neg (not_isCluster_end hmax)]

/-- More bytes than the chain has left are not read: the loop comes to the end mark. -/
theorem readLoop_past (hmax : v.numFatEntries ≤ kMaxFatEntries) (hb : 0 < v.bytesPerCluster)
    (h : v.ClusterChain first l) (fuel remaining pos x : Nat)
    (hpast : l.length * v.bytesPerCluster < pos + remaining) (hpos : 0 < remaining)
    (hx : StandsAt v.bytesPerCluster l pos x) :
    v.readLoop fuel remaining x (pos % v.bytesPerCluster) = none := by
  induction fuel generalizing remaining pos x with
  | zero =>
    obtain ⟨remaining, rfl⟩ : ∃ r, remaining = r + 1 := ⟨remaining - 1, by omega⟩
    rfl
  | succ fuel ih =>
    -- in a cluster the loop takes the rest of it and goes on; it has to come to the end mark
    rcases hx with hget | ⟨rfl, -⟩
    · obtain ⟨remaining, rfl⟩ : ∃ r, remaining = r + 1 := ⟨remaining - 1, by omega⟩
      have hlt := (List.getElem?_eq_some_iff.mp hget).1
      have hdiv := Nat.div_add_mod pos v.bytesPerCluster
      have hmod := Nat.mod_lt pos hb
      have hmul := Nat.mul_le_mul_right v.bytesPerCluster (Nat.succ_le_of_lt hlt)
      rw [Nat.succ_mul, Nat.mul_comm] at hmul
      rw [readLoop, if_pos (h.valid x (List.mem_of_getElem? hget)).1]
      dsimp only
      -- the rest of the cluster is not enough
      have hfull : min (remaining + 1) (v.bytesPerCluster - pos % v.bytesPerCluster) =
        v.bytesPerCluster - pos % v.bytesPerCluster := by omega
      obtain ⟨hdiv', hmod'⟩ := position_next hb
        (show pos % v.bytesPerCluster + (v.bytesPerCluster - pos % v.bytesPerCluster) =
          v.bytesPerCluster by omega)
      obtain ⟨y, hnext, hy⟩ := StandsAt.next hmax h hb hget
      have hpos' : (pos / v.bytesPerCluster + 1) * v.bytesPerCluster =
          pos + (v.bytesPerCluster - pos % v.bytesPerCluster) := by
        rw [Nat.succ_mul, Nat.mul_comm]
        omega
      have hrest := ih (remaining + 1 - (v.bytesPerCluster - pos % v.bytesPerCluster)) _ y
        (by omega) (by omega) (hpos' ▸ hy)
      rw [hmod'] at hrest
      rw [hfull, if_pos (by omega), hnext, Option.map_some, Option.bind_some]
      dsimp only
      rw [hrest, Option.map_none]
    · exact readLoop_end hmax (fuel + 1) _ hpos

/-- The loop of `Load` finds the cluster of a position by taking clusters off. -/
theorem loadLoop_spec (hmax : v.numFatEntries ≤ kMaxFatEntries) (hb : 0 < v.bytesPerCluster)
    (h : v.ClusterChain first l) (fuel offset j x : Nat) (hfuel : offset ≤ fuel)
    (hroom : j * v.bytesPerCluster + offset ≤ l.length * v.bytesPerCluster)
    (hx : StandsAt v.bytesPerCluster l (j * v.bytesPerCluster) x) :
    ∃ x', v.loadLoop fuel offset x = some (offset % v.bytesPerCluster, x') ∧
      StandsAt v.bytesPerCluster l (j * v.bytesPerCluster + offset) x' := by
  induction fuel generalizing offset j x with
  | zero =>
    obtain rfl : offset = 0 := by omega
    refine ⟨x, ?_, hx⟩
    rw [loadLoop, if_neg (by omega), Nat.zero_mod]
  | succ fuel ih =>
    rw [loadLoop]
    -- a round takes one cluster off the offset and one step along the chain
    by_cases hmore : v.bytesPerCluster ≤ offset
    · obtain ⟨hget, -⟩ := hx.getElem? (by omega)
      rw [Nat.mul_div_cancel _ hb] at hget
      obtain ⟨y, hnext, hy⟩ := StandsAt.next hmax h hb hget
      have hsucc : (j + 1) * v.bytesPerCluster = j * v.bytesPerCluster + v.bytesPerCluster :=
        Nat.succ_mul ..
      obtain ⟨x', hrest, hx'⟩ := ih (offset - v.bytesPerCluster) (j + 1) y (by omega) (by omega) hy
      rw [if_pos hmore, hnext, Option.bind_some, hrest, Nat.mod_eq_sub_mod hmore]
      refine ⟨x', rfl, ?_⟩
      rwa [show j * v.bytesPerCluster + offset =
        (j + 1) * v.bytesPerCluster + (offset - v.bytesPerCluster) by omega]
    · rw [if_neg hmore, Nat.mod_eq_of_lt (by omega)]
      refine ⟨x, rfl, ?_⟩
      unfold StandsAt at hx ⊢
      rw [Nat.mul_div_cancel _ hb] at hx
      rw [Nat.mul_comm j, Nat.mul_add_div hb, Nat.div_eq_of_lt (by omega), Nat.add_zero]
      refine hx.imp id fun hend => ⟨hend.1, ?_⟩
      have := hend.2
      rw [Nat.mul_comm] at this
      omega

/-! ## Descriptors -/

/-- A descriptor of the file of `p`, which has the clusters `l`: it has not read anything yet, or its
cluster is that of its position. -/
structure ReadPosition (v : Volume) (p : EntryPtr) (l : List Nat) (fd : FileDescriptor) : Prop where
  entry : fd.fatEntry = p
  offset : fd.rdClusterOff = fd.rdOff % v.bytesPerCluster
  cluster : fd.rdCluster = 0 ∧ fd.rdOff = 0 ∨ StandsAt v.bytesPerCluster l fd.rdOff fd.rdCluster

theorem ReadPosition.new (v : Volume) (p : EntryPtr) (l : List Nat) :
    v.ReadPosition p l (.new p) := ⟨rfl, (Nat.zero_mod _).symm, .inl ⟨rfl, rfl⟩⟩

theorem StandsAt.ne_zero (h : v.ClusterChain first l) (hx : StandsAt b l pos x) : x ≠ 0 := by
  rcases hx with hget | ⟨rfl, -⟩
  · have hcluster := (h.valid x (List.mem_of_getElem? hget)).1.1
    omega
  · decide

theorem standsAt_first (h : v.ClusterChain first l) (b : Nat) : StandsAt b l 0 first := by
  obtain ⟨t, rfl⟩ := h.chain.exists_cons
  exact .inl (by rw [Nat.zero_div]; rfl)

/-- The cluster that `Read` starts with. -/
theorem ReadPosition.start {fd : FileDescriptor} (hfd : v.ReadPosition p l fd)
    (h : v.ClusterChain (v.firstCluster p) l) :
    StandsAt v.bytesPerCluster l fd.rdOff
      (if fd.rdCluster = 0 then v.firstCluster fd.fatEntry else fd.rdCluster) := by
  rcases hfd.cluster with ⟨hzero, hoff⟩ | hx
  · rw [if_pos hzero, hoff, hfd.entry]
    exact standsAt_first h _
  · rw [if_neg (hx.ne_zero h)]
    exact hx

/-- A `Read` of `n` bytes that the clusters have: what it returns and what it leaves in the descriptor. -/
theorem ReadPosition.read_count {fd : FileDescriptor} (hfd : v.ReadPosition p l fd)
    (hmax : v.numFatEntries ≤ kMaxFatEntries) (hb : 0 < v.bytesPerCluster) (h : v.FileChain p l)
    {len : Nat} (hn : min len (sub64 (v.fileSize p) fd.rdOff) = n)
    (hroom : fd.rdOff + n ≤ l.length * v.bytesPerCluster) :
    ∃ fd', fd.read v len = some (v.bytesAt l fd.rdOff n, fd') ∧
      v.ReadPosition p l fd' ∧ fd'.rdOff = fd.rdOff + n ∧ ∀ x ∈ fd.readClusters v len, x ∈ l := by
  unfold FileDescriptor.read FileDescriptor.readClusters
  dsimp only
  rw [hfd.entry, hn, hfd.offset]
  rcases h with ⟨hzero, rfl⟩ | hchain
  · -- a file without a chain is empty
    rw [List.length_nil, Nat.zero_mul] at hroom
    obtain rfl : n = 0 := by omega
    have hx : (if fd.rdCluster = 0 then v.firstCluster p else fd.rdCluster) = fd.rdCluster := by
      split <;> simp_all
    rw [hx, readLoop, readLoopClusters]
    exact ⟨_, rfl, ⟨rfl, rfl, hfd.cluster⟩, rfl, fun x hx => by cases hx⟩
  -- the loop starts at the position of the descriptor, or at that of a new one
  · have hstart := hfd.start hchain
    rw [hfd.entry] at hstart
    obtain ⟨x', hloop, hx', hin⟩ := readLoop_spec hmax hb rfl hchain (contents_contentOf hb l) n n
      fd.rdOff _ (Nat.le_refl n) (by omega) hstart
    rw [hloop, Option.map_some]
    have hlength := v.bytesAt_length l fd.rdOff n
    unfold bytesAt at hlength ⊢
    rw [hlength]
    exact ⟨_, rfl, ⟨rfl, rfl, .inr hx'⟩, rfl, hin⟩

/-- One `Read` of a file of a whole chain. -/
theorem ReadPosition.read {fd : FileDescriptor} (hfd : v.ReadPosition p l fd)
    (hmax : v.numFatEntries ≤ kMaxFatEntries) (hb : 0 < v.bytesPerCluster) (h : v.FileChain p l)
    (hcover : v.fileSize p ≤ l.length * v.bytesPerCluster) (hle : fd.rdOff ≤ v.fileSize p) (len : Nat) :
    ∃ fd', fd.read v len = some (v.bytesAt l fd.rdOff (min len (v.fileSize p - fd.rdOff)), fd') ∧
      v.ReadPosition p l fd' ∧ fd'.rdOff = fd.rdOff + min len (v.fileSize p - fd.rdOff) ∧
      ∀ x ∈ fd.readClusters v len, x ∈ l := by
  have hlt := v.fileSize_lt p
  exact hfd.read_count hmax hb h (by rw [sub64_of_le hle (by omega)]) (by omega)

/-- The descriptor that `Load` makes is at the position asked for. -/
theorem ReadPosition.load {fd : FileDescriptor} (hfd : fd.fatEntry = p)
    (hmax : v.numFatEntries ≤ kMaxFatEntries) (hb : 0 < v.bytesPerCluster) (h : v.FileChain p l)
    {offset : Nat} (hroom : offset ≤ l.length * v.bytesPerCluster) :
    ∃ g, fd.loadDescriptor v offset = some g ∧ v.ReadPosition p l g ∧ g.rdOff = offset := by
  unfold FileDescriptor.loadDescriptor
  rw [hfd]
  rcases h with ⟨hzero, rfl⟩ | hchain
  · rw [List.length_nil, Nat.zero_mul] at hroom
    obtain rfl : offset = 0 := by omega
    rw [loadLoop, if_neg (by omega), Option.map_some]
    exact ⟨_, rfl, ⟨rfl, (Nat.zero_mod _).symm, .inl ⟨hzero, rfl⟩⟩, rfl⟩
  -- the walk starts with the first cluster, at position 0
  · obtain ⟨x, hloop, hx⟩ := loadLoop_spec hmax hb hchain offset offset 0 _ (Nat.le_refl offset)
      (by omega) (by rw [Nat.zero_mul]; exact standsAt_first hchain _)
    rw [Nat.zero_mul, Nat.zero_add] at hx
    rw [hloop, Option.map_some]
    exact ⟨_, rfl, ⟨rfl, rfl, .inr hx⟩, rfl⟩

end Volume

end MikanSaos
