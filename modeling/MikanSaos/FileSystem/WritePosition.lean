import MikanSaos.FileSystem.RoundTrip

/-!
# WritePosition — the three fields that a writing descriptor keeps its position in

`wrOff` counts the bytes written, `wrCluster` and `wrClusterOff` say where the next one goes.  They agree as
long as a full chain grows by one cluster at a time: from a longer extension the code caches the last of the
new clusters, and the cursor is ahead of the count from then on.
-/

open Reasoning

namespace MikanSaos

namespace Stream

variable {b : Nat} {s : Stream} {pos : Nat}

/-- The bytes taken of the last cluster after a `Write` that needs one more cluster at most. -/
def nextOffset (b offset len : Nat) : Nat :=
  if offset + len ≤ b then offset + len else min len b

/-- Each `Write` ends in the cluster it starts in, where `offset` bytes are taken, or in the one behind. -/
def OneMoreRest (b : Nat) : Nat → List Nat → Prop
  | _, [] => True
  | offset, len :: lens => offset + len ≤ 2 * b ∧ OneMoreRest b (nextOffset b offset len) lens

instance decidableOneMoreRest (b : Nat) : ∀ offset lens, Decidable (OneMoreRest b offset lens)
  | _, [] => isTrue trivial
  | offset, len :: lens =>
    have := decidableOneMoreRest b (nextOffset b offset len) lens
    inferInstanceAs (Decidable (_ ∧ _))

/-- The first `Write` makes its clusters at once and ends in the last of them; every other one takes one more
cluster at most. -/
def OneMore (b : Nat) : List Nat → Prop
  | [] => True
  | len :: lens => OneMoreRest b (min len b) lens

instance (b : Nat) : ∀ lens, Decidable (OneMore b lens)
  | [] => isTrue trivial
  | len :: lens => decidableOneMoreRest b (min len b) lens

theorem OneMoreRest.of_append {offset : Nat} {lens lens' : List Nat}
    (h : OneMoreRest b offset (lens ++ lens')) : OneMoreRest b offset lens := by
  induction lens generalizing offset with
  | nil => trivial
  | cons len lens ih => exact ⟨h.1, ih h.2⟩

/-! ## One more cluster -/

variable (buf : Nat → UInt8) (len : Nat)

/-- The last round of a `Write` that starts at the end of the chain: one cluster is added, and it is
written from its start on. -/
theorem writeLoop_more (hb : 0 < b) (fuel total : Nat) (hfull : s.offset = b)
    (hlast : s.index + 1 = s.clusters) (hmore : total < len) (hleft : len - total ≤ b) :
    writeLoop b buf len (fuel + 1) total s = (total + min len b,
      (⟨s.clusters + 1, s.clusters, 0, s.content⟩ : Stream).put b (fun k => buf (total + k))
        (min len b)) := by
  have hadv := advance_next (len - total) hfull (by omega)
    (.inr (clustersFor_one hb (by omega) hleft))
  rw [show max s.clusters (s.index + 2) = s.clusters + 1 by omega, hlast] at hadv
  rw [writeLoop, if_pos hmore, hadv]
  exact writeLoop_done (by dsimp only; omega)

theorem Tight.writeOne (h : s.Tight b pos) (hb : 0 < b) (hfit : s.offset + len ≤ 2 * b) :
    ∃ n s', writeLoop b buf len len 0 s = (n, s') ∧ s'.Tight b (pos + n) ∧
      s'.offset = nextOffset b s.offset len ∧ s'.clusters ≤ s.clusters + max 1 (clustersFor b len) := by
  have hlast := h.last
  have hle := h.offset_le
  have hpos := h.position
  unfold Stream.position at hpos
  have hclusters : s.clusters * b = s.index * b + b := by rw [← hlast, Nat.succ_mul]
  have hone : s.clusters + 1 ≤ s.clusters + max 1 (clustersFor b len) := by omega
  unfold nextOffset
  by_cases hzero : len = 0
  · subst hzero
    exact ⟨0, s, rfl, h, (if_pos hle).symm, by omega⟩
  by_cases hin : s.offset + len ≤ b
  · -- the bytes fit in the last cluster
    have hadv : s.advance b len = s := if_neg (by omega)
    rw [writeLoop_first s (by omega), hadv, show min len (b - s.offset) = len by omega,
      writeLoop_done (Nat.le_refl len), if_pos hin]
    refine ⟨len, _, rfl, ⟨hlast, ?_, hin, .inr ?_⟩, rfl, by simp only [Stream.put]; omega⟩
    · unfold Stream.position Stream.put
      dsimp only
      omega
    · simp only [Stream.put]
      omega
  · -- they end in the cluster behind, which is added once the last one is full
    rw [if_neg hin]
    -- the new cluster is the last one, and holds `min len b` bytes then
    have htight : ∀ (s₁ : Stream) (src : Nat → UInt8), s₁.clusters = s.clusters →
        ((⟨s₁.clusters + 1, s₁.clusters, 0, s₁.content⟩ : Stream).put b src (min len b)).Tight b
          (s.clusters * b + min len b) := by
      intro s₁ src hs₁
      refine ⟨rfl, ?_, Nat.le_trans (Nat.le_of_eq (Nat.zero_add _)) (Nat.min_le_right _ _), .inr ?_⟩
      · unfold Stream.position Stream.put
        dsimp only
        rw [hs₁, Nat.zero_add]
      · simp only [Stream.put]
        omega
    by_cases hfull : s.offset = b
    · obtain ⟨fuel, hfuel⟩ : ∃ f, len = f + 1 := ⟨len - 1, by omega⟩
      have hrun := writeLoop_more buf len hb fuel 0 hfull hlast (by omega) (by omega)
      rw [← hfuel] at hrun
      refine ⟨_, _, hrun, ?_, Nat.zero_add _, hone⟩
      rw [show pos + (0 + min len b) = s.clusters * b + min len b by omega]
      exact htight s _ rfl
    · have hadv : s.advance b len = s := if_neg hfull
      obtain ⟨fuel, hfuel⟩ : ∃ f, len - 1 = f + 1 := ⟨len - 2, by omega⟩
      have hrun := writeLoop_more buf len (s := s.put b buf (b - s.offset)) hb fuel (b - s.offset)
        (by simp only [Stream.put]; omega) hlast (by omega) (by omega)
      rw [writeLoop_first s (by omega), hadv, show min len (b - s.offset) = b - s.offset by omega, hfuel]
      refine ⟨_, _, hrun, ?_, Nat.zero_add _, hone⟩
      rw [show pos + (b - s.offset + min len b) = s.clusters * b + min len b by omega]
      exact htight _ _ rfl

/-- A longer extension: the clusters between the end of the chain and the new end are skipped. -/
theorem writeLoop_jump (hb : 0 < b) (fuel total : Nat) (hfull : s.offset = b)
    (hlast : s.index + 1 = s.clusters) (hleft : b < len - total) :
    (writeLoop b buf len (fuel + 1) total s).1 + s.position b + b ≤
      (writeLoop b buf len (fuel + 1) total s).2.position b + total := by
  -- at least two clusters are added, and the cursor goes to the last of them
  have htwo := clustersFor_two hb hleft
  have hadv : s.advance b (len - total) = ⟨s.clusters + clustersFor b (len - total),
      s.clusters + clustersFor b (len - total) - 1, 0, s.content⟩ := by
    unfold Stream.advance
    rw [if_pos hfull, if_neg (by omega)]
  rw [writeLoop, if_pos (by omega), hadv]
  dsimp only
  generalize hs₁ : (⟨s.clusters + clustersFor b (len - total),
    s.clusters + clustersFor b (len - total) - 1, 0, s.content⟩ : Stream) = s₁
  have hok : s₁.Ok b := by
    rw [← hs₁]
    exact ⟨by dsimp only; omega, Nat.zero_le _⟩
  have hskip : s.position b + b ≤ s₁.position b := by
    have hmul := Nat.mul_le_mul_right b (show s.clusters + 1 ≤ s₁.index by
      rw [← hs₁]
      dsimp only
      omega)
    rw [Nat.succ_mul, ← hlast, Nat.succ_mul] at hmul
    unfold Stream.position
    omega
  have hoff : s₁.offset = 0 := by rw [← hs₁]
  have hput := (wrote_put (b := b) s₁ (fun k => buf (total + k)) (min len (b - 0))).position
  obtain ⟨hrest, -⟩ := writeLoop_position buf len hb fuel (total + min len (b - 0))
    (hok.put (fun k => buf (total + k)) (n := min len (b - 0)) (by omega))
  omega

theorem Tight.jump (h : s.Tight b pos) (hb : 0 < b) (hmany : 2 * b < s.offset + len) :
    (writeLoop b buf len len 0 s).1 + pos < (writeLoop b buf len len 0 s).2.position b := by
  have hlast := h.last
  have hle := h.offset_le
  have hpos := h.position
  by_cases hfull : s.offset = b
  · obtain ⟨fuel, hfuel⟩ : ∃ f, len = f + 1 := ⟨len - 1, by omega⟩
    have hjump := writeLoop_jump buf len hb fuel 0 hfull hlast (by omega)
    rw [← hfuel] at hjump
    omega
  · -- the first round fills the last cluster
    have hadv : s.advance b len = s := if_neg hfull
    obtain ⟨fuel, hfuel⟩ : ∃ f, len - 1 = f + 1 := ⟨len - 2, by omega⟩
    have hput := (wrote_put (b := b) s buf (b - s.offset)).position
    have hjump := writeLoop_jump buf len (s := s.put b buf (b - s.offset)) hb fuel (b - s.offset)
      (by simp only [Stream.put]; omega) hlast (by omega)
    rw [writeLoop_first s (by omega), hadv, show min len (b - s.offset) = b - s.offset by omega, hfuel]
    omega

/-! ## Several writes -/

theorem Tight.writeAllOne (h : s.Tight b pos) (hb : 0 < b) (chunks : List Chunk)
    (hfit : OneMoreRest b s.offset (chunks.map Chunk.len)) :
    (Stream.writeAll b s chunks).2.Tight b (pos + (Stream.writeAll b s chunks).1.sum) ∧
      (Stream.writeAll b s chunks).2.clusters ≤
        s.clusters + (chunks.map fun c => max 1 (clustersFor b c.len)).sum := by
  induction chunks generalizing s pos with
  | nil => exact ⟨h, Nat.le_refl _⟩
  | cons c chunks ih =>
    obtain ⟨hhere, hrest⟩ := hfit
    obtain ⟨n, s', hrun, htight, hoff, hclusters⟩ := h.writeOne c.buf c.len hb hhere
    rw [← hoff] at hrest
    obtain ⟨htight', hclusters'⟩ := ih htight hrest
    rw [Stream.writeAll, hrun, List.sum_cons, List.map_cons, List.sum_cons, ← Nat.add_assoc]
    exact ⟨htight', by dsimp only; omega⟩

/-- Where a `Write` needs more than one new cluster, the cursor gets ahead of the count. -/
theorem Tight.ahead (h : s.Tight b pos) (hb : 0 < b) (chunks : List Chunk)
    (hfit : ¬ OneMoreRest b s.offset (chunks.map Chunk.len)) :
    ∃ pre, pre <+: chunks ∧ (Stream.writeAll b s pre).1.sum + pos < (Stream.writeAll b s pre).2.position b := by
  induction chunks generalizing s pos with
  | nil => exact absurd trivial hfit
  | cons c chunks ih =>
    -- the first `Write` that breaks the condition is the one that jumps
    by_cases hhere : s.offset + c.len ≤ 2 * b
    · obtain ⟨n, s', hrun, htight, hoff, -⟩ := h.writeOne c.buf c.len hb hhere
      obtain ⟨pre, hpre, hahead⟩ := ih htight fun hrest => hfit ⟨hhere, by rw [← hoff]; exact hrest⟩
      refine ⟨c :: pre, List.cons_prefix_cons.mpr ⟨rfl, hpre⟩, ?_⟩
      rw [Stream.writeAll, hrun, List.sum_cons]
      dsimp only
      omega
    · refine ⟨[c], List.cons_prefix_cons.mpr ⟨rfl, List.nil_prefix⟩, ?_⟩
      have hjump := h.jump c.buf c.len hb (by omega)
      simpa [Stream.writeAll] using hjump

end Stream

/-! ## The fields of the descriptor -/

namespace Volume

/-- The descriptor's cluster is number `i` of the chain of its file, and the count of the bytes written is
the position of its offset in that cluster. -/
def Positioned (v : Volume) (fd : FileDescriptor) : Prop :=
  ∃ i l, v.ClusterChain (v.firstCluster fd.fatEntry) l ∧ l[i]? = some fd.wrCluster ∧
    fd.wrOff = i * v.bytesPerCluster + fd.wrClusterOff ∧ fd.wrClusterOff ≤ v.bytesPerCluster

variable {v : Volume} {fd : FileDescriptor} {p : EntryPtr}

/-- While the cluster is not full, the next byte goes where `Read` fetches the byte at `wrOff`. -/
theorem Positioned.next_byte (h : v.Positioned fd) (hlt : fd.wrClusterOff < v.bytesPerCluster) :
    ∃ l, v.ClusterChain (v.firstCluster fd.fatEntry) l ∧
      l[fd.wrOff / v.bytesPerCluster]? = some fd.wrCluster ∧
      fd.wrOff % v.bytesPerCluster = fd.wrClusterOff := by
  obtain ⟨i, l, hl, hi, hoff, -⟩ := h
  refine ⟨l, hl, ?_, ?_⟩
  · rw [hoff, Nat.mul_comm, Nat.mul_add_div (by omega), Nat.div_eq_of_lt hlt, Nat.add_zero]
    exact hi
  · rw [hoff, Nat.mul_comm, Nat.mul_add_mod, Nat.mod_eq_of_lt hlt]

theorem positioned_iff {b first : Nat} {area : List Nat} {s : Stream} (h : Follows fd v b first area s)
    (hfirst : v.firstCluster fd.fatEntry = first) : v.Positioned fd ↔ s.position b = fd.wrOff := by
  have hst := h.stores
  have hlt := hst.ok.index_lt
  have hget : (area.take s.clusters)[s.index]? = some fd.wrCluster :=
    (List.getElem?_take_of_lt hlt).trans h.cluster
  unfold Positioned Stream.position
  rw [hfirst, hst.bytes, h.offset]
  constructor
  · rintro ⟨i, l, hl, hi, hoff, -⟩
    rw [hl.unique hst.chain] at hi
    -- the clusters of the chain are different
    have hindex : i = s.index := (List.getElem?_inj (List.getElem?_eq_some_iff.mp hi).1
      hst.chain.nodup).mp (hi.trans hget.symm)
    rw [hoff, hindex]
  · intro hpos
    exact ⟨s.index, _, hst.chain, hget, hpos.symm, hst.ok.offset_le⟩

end Volume

open Volume

variable {v : Volume} {p : EntryPtr}

/-- **When a writer knows its position.**  Successive writes to an empty file, on a volume with room, leave
after each call a descriptor whose three fields agree iff every `Write` but the first one needs one new
cluster at most. -/
theorem writes_positioned_iff (hb : 0 < v.bytesPerCluster) (hmax : v.numFatEntries ≤ kMaxFatEntries)
    (hentry : v.fat p.cluster ≠ 0) (hfirst : v.firstCluster p = 0) (lens : List Nat)
    (hroom : (lens.map fun len => max 1 (clustersFor v.bytesPerCluster len)).sum ≤
      v.freeClusters.length) :
    (∀ chunks : List Chunk, chunks.map Chunk.len = lens → ∀ pre, pre <+: chunks → pre ≠ [] →
      ∃ ns fd v', (FileDescriptor.new p).writeAll v pre = some (ns, fd, v') ∧ v'.Positioned fd) ↔
      Stream.OneMore v.bytesPerCluster lens := by
  have hp : p.cluster ∉ v.freeClusters := fun h => hentry (mem_freeClusters.mp h).2
  constructor
  · intro h
    cases lens with
    | nil => trivial
    | cons len lens =>
      -- the prefix up to the `Write` that jumps is not positioned
      by_contra hmore
      have hlens : (repeated 0 (len :: lens)).map Chunk.len = len :: lens := repeated_len 0 _
      obtain ⟨s₁, hrun₁, -, htight, hoff, -⟩ := Stream.tight_first (fun _ => 0) len hb
        (v.contentOf v.freeClusters)
      obtain ⟨pre, hpre, hahead⟩ := htight.ahead hb (repeated 0 lens) (by
        rw [repeated_len, hoff]
        exact hmore)
      obtain ⟨ns, fd, v', hwrite, hposed⟩ := h _ hlens (⟨fun _ => 0, len⟩ :: pre)
        (List.cons_prefix_cons.mpr ⟨rfl, hpre⟩) (List.cons_ne_nil _ _)
      obtain ⟨hfull, hsome⟩ := FileDescriptor.writeAll_new hb hmax hp hfirst
        (c := ⟨fun _ => 0, len⟩) hrun₁
        (show Stream.writeAll v.bytesPerCluster s₁ pre = (_, _) from rfl)
      by_cases hclusters : (Stream.writeAll v.bytesPerCluster s₁ pre).2.clusters ≤
        v.freeClusters.length
      · obtain ⟨fd', v'', x, heq, hfollows, hentry', hoff', hx, -⟩ := hsome hclusters
        cases hwrite.symm.trans heq
        have hpos := (positioned_iff hfollows (hentry' ▸ hx)).mp hposed
        omega
      · rw [hfull (by omega)] at hwrite
        cases hwrite
  · rintro hone chunks rfl pre ⟨chunks', rfl⟩ hne
    obtain ⟨c, pre, rfl⟩ := List.exists_cons_of_ne_nil hne
    rw [List.cons_append, List.map_cons, List.map_append] at hone hroom
    rw [List.map_cons, List.map_append, List.sum_cons, List.sum_append, List.map_map] at hroom
    obtain ⟨s₁, hrun₁, -, htight, hoff, hclusters₁⟩ := Stream.tight_first c.buf c.len hb
      (v.contentOf v.freeClusters)
    obtain ⟨htight', hclusters'⟩ := htight.writeAllOne hb pre (by
      rw [hoff]
      exact hone.of_append)
    obtain ⟨fd, v', x, hwrite, hfollows, hentry', hoff', hx, -⟩ :=
      (FileDescriptor.writeAll_new hb hmax hp hfirst hrun₁
        (show Stream.writeAll v.bytesPerCluster s₁ pre = (_, _) from rfl)).2 (by
          change _ + ((pre.map fun c => max 1 (clustersFor v.bytesPerCluster c.len)).sum + _) ≤ _
            at hroom
          omega)
    refine ⟨_, fd, v', hwrite, (positioned_iff hfollows (hentry' ▸ hx)).mpr ?_⟩
    rw [htight'.position, hoff']

theorem writes_positioned_iff_three_writes : ∃ ns fd v', (FileDescriptor.new ⟨2, 0⟩).writeAll emptyFileVolume
    [⟨fun _ => 0, 20⟩, ⟨fun _ => 1, 40⟩, ⟨fun _ => 2, 30⟩] = some (ns, fd, v') ∧ v'.Positioned fd := by
  have hpositioned := (writes_positioned_iff (v := emptyFileVolume) (p := ⟨2, 0⟩) (by decide) (by decide)
    (by decide) (by decide) [20, 40, 30] (by decide)).mpr (by decide)
  exact hpositioned _ rfl _ (List.prefix_refl _) (List.cons_ne_nil _ _)

/-- 32 bytes fill the first cluster, and 64 more need two: the descriptor caches the second of them, and
ends one cluster behind its count. -/
theorem write_two_clusters_behind : ∃ ns fd v',
    (FileDescriptor.new ⟨2, 0⟩).writeAll emptyFileVolume [⟨fun _ => 0, 32⟩, ⟨fun _ => 1, 64⟩] =
      some (ns, fd, v') ∧ ns = [32, 64] ∧ ¬ v'.Positioned fd := by
  obtain ⟨ns, fd, v', hwrite⟩ : ∃ ns fd v', (FileDescriptor.new ⟨2, 0⟩).writeAll emptyFileVolume
      [⟨fun _ => 0, 32⟩, ⟨fun _ => 1, 64⟩] = some (ns, fd, v') := ⟨_, _, _, rfl⟩
  refine ⟨ns, fd, v', hwrite, ?_, ?_⟩
  · cases hwrite
    rfl
  · have hchain : v'.ClusterChain (v'.firstCluster fd.fatEntry) [3, 4, 5, 6] := by
      cases hwrite
      exact ⟨.link (by decide) (.link (by decide) (.link (by decide) (.last (by decide)))), by decide⟩
    have hfields : fd.wrOff = 96 ∧ fd.wrCluster = 6 ∧ fd.wrClusterOff = 32 ∧ v'.bytesPerCluster = 32 := by
      cases hwrite
      decide
    rintro ⟨i, l, hl, hi, hoff, -⟩
    obtain ⟨hwrOff, hcluster, hclusterOff, hbytes⟩ := hfields
    rw [hl.unique hchain, hcluster] at hi
    rw [hwrOff, hclusterOff, hbytes] at hoff
    -- cluster 6 is the fourth one, so that the next byte would be byte 128
    obtain rfl : i = 2 := by omega
    exact absurd hi (by decide)

end MikanSaos
