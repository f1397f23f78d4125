import MikanSaos.FileSystem.ClusterChains
import MikanSaos.FileSystem.FileDescriptor
import MikanSaos.FileSystem.Stream

/-!
# WriteStream — `Write` on a chain refines the stream

`area` lists the clusters of a file and behind them the free clusters in the order in which the file
will get them, so that the list stays the same while the file grows: `Stores` relates a volume to a
stream over it.
-/

open Reasoning

namespace MikanSaos

namespace Volume

/-- Only the cells and the clusters of `area` have changed. -/
structure Outside (v v' : Volume) (area : List Nat) : Prop where
  bytesPerCluster : v'.bytesPerCluster = v.bytesPerCluster
  numFatEntries : v'.numFatEntries = v.numFatEntries
  rootCluster : v'.rootCluster = v.rootCluster
  fat : ∀ x ∉ area, v'.fat x = v.fat x
  data : ∀ x ∉ area, v'.data x = v.data x

theorem Outside.refl (v : Volume) (area : List Nat) : Outside v v area :=
  ⟨rfl, rfl, rfl, fun _ _ => rfl, fun _ _ => rfl⟩

theorem Outside.trans {v v' v'' : Volume} {area : List Nat} (h : Outside v v' area)
    (h' : Outside v' v'' area) : Outside v v'' area :=
  ⟨h'.1.trans h.1, h'.2.trans h.2, h'.3.trans h.3, fun x hx => (h'.4 x hx).trans (h.4 x hx),
    fun x hx => (h'.5 x hx).trans (h.5 x hx)⟩

theorem Outside.isCluster {v v' : Volume} {area : List Nat} (h : Outside v v' area) {x : Nat}
    (hx : v.IsCluster x) : v'.IsCluster x := by
  unfold IsCluster
  rw [h.numFatEntries]
  exact hx

/-- The bytes of the clusters in `area`, one cluster of `b` bytes behind the other. -/
def Contents (v : Volume) (b : Nat) (area : List Nat) (content : Nat → UInt8) : Prop :=
  ∀ i x, area[i]? = some x → ∀ k < b, v.data x k = content (i * b + k)

/-- The bytes that the clusters hold, whether a file of the volume has them yet or not. -/
def contentOf (v : Volume) (area : List Nat) (q : Nat) : UInt8 :=
  v.data (area.getD (q / v.bytesPerCluster) 0) (q % v.bytesPerCluster)

theorem contents_contentOf {v : Volume} (hb : 0 < v.bytesPerCluster) (area : List Nat) :
    v.Contents v.bytesPerCluster area (v.contentOf area) := by
  intro i x hx k hk
  unfold contentOf
  rw [Nat.mul_comm, Nat.mul_add_div hb, Nat.div_eq_of_lt hk, Nat.add_zero, Nat.mul_add_mod,
    Nat.mod_eq_of_lt hk, List.getD_eq_getElem?_getD, hx, Option.getD_some]

/-- The chain from `first`, of clusters of `b` bytes, is the file of the stream. -/
structure Stores (v : Volume) (b first : Nat) (area : List Nat) (s : Stream) : Prop where
  bytes : v.bytesPerCluster = b
  pos : 0 < b
  max : v.numFatEntries ≤ kMaxFatEntries
  chain : v.ClusterChain first (area.take s.clusters)
  free : v.freeClusters = area.drop s.clusters
  clusters_le : s.clusters ≤ area.length
  ok : s.Ok b
  content : v.Contents b area s.content

variable {v : Volume} {b first : Nat} {area : List Nat} {s : Stream}

theorem Stores.nodup (h : v.Stores b first area s) : area.Nodup := by
  rw [← List.take_append_drop s.clusters area]
  refine List.nodup_append'.mpr ⟨h.chain.nodup, ?_, fun x hx hfree => ?_⟩
  · rw [← h.free]
    exact v.freeClusters_nodup
  · exact h.chain.not_free hx (h.free ▸ hfree)

theorem Stores.isCluster (h : v.Stores b first area s) {x : Nat}
    (hx : area[s.index]? = some x) : v.IsCluster x := by
  refine (h.chain.valid x ?_).1
  exact List.mem_of_getElem? ((List.getElem?_take_of_lt h.ok.index_lt).trans hx)

/-- The end of the chain, where the cursor is in the last cluster. -/
theorem Stores.getLast?_eq (h : v.Stores b first area s) (hlast : s.index + 1 = s.clusters) :
    (area.take s.clusters).getLast? = area[s.index]? := by
  have hle := h.clusters_le
  rw [List.getLast?_eq_getElem?, List.length_take, Nat.min_eq_left hle,
    List.getElem?_take_of_lt (by omega)]
  congr 1
  omega

/-- A file that grows takes the clusters that follow in `area`. -/
theorem Stores.extend (h : v.Stores b first area s) {x n : Nat} (hx : area[s.index]? = some x)
    (hlast : s.index + 1 = s.clusters) (hn : 0 < n) :
    (area.length < s.clusters + n → v.extendCluster x n = none) ∧
    (s.clusters + n ≤ area.length → ∃ x' v', v.extendCluster x n = some (x', v') ∧
      area[s.clusters + n - 1]? = some x' ∧ Outside v v' area ∧
      v'.Stores b first area
        { s with clusters := s.clusters + n, index := s.clusters + n - 1, offset := 0 }) := by
  have hend := (h.getLast?_eq hlast).trans hx
  have hmem := List.mem_of_getLast? hend
  have hext := h.chain.extendCluster_of_mem h.max hmem hend n
  rw [h.free, List.length_drop] at hext
  refine ⟨fun hroom => ?_, fun hroom => ?_⟩
  · rw [hext, if_neg (by omega)]
  rw [if_pos (by omega)] at hext
  generalize hnew : (area.drop s.clusters).take n = new at hext
  have hlen : new.length = n := by
    rw [← hnew, List.length_take, List.length_drop]
    omega
  have hget : area[s.clusters + n - 1]? = some (new.getLastD x) := by
    rw [List.getLastD_eq_getLast?, List.getLast?_eq_getElem?, hlen, ← hnew,
      List.getElem?_take_of_lt (by omega), List.getElem?_drop,
      List.getElem?_eq_getElem (by omega), List.getElem?_eq_getElem (by omega), Option.getD_some]
    congr 2
    omega
  have hsub : new ⊆ v.freeClusters := by
    rw [h.free, ← hnew]
    exact List.take_subset n _
  have hnodup : new.Nodup := by
    rw [← hnew]
    exact h.nodup.sublist ((List.take_sublist n _).trans (List.drop_sublist _ _))
  have hxnew : x ∉ new := fun hin => h.chain.not_free hmem (hsub hin)
  have happ := h.chain.appended h.max hend hnodup hsub
  have hsame := happ.sameData
  have hchain := happ.chain
  rw [← hnew, ← List.take_add, hnew] at hchain
  have hfree : (v.relink x new).freeClusters = area.drop (s.clusters + n) := by
    have hfilter : v.freeClusters.filter (· ∉ x :: new) =
        v.freeClusters.filter (· ∉ v.freeClusters.take n) := by
      apply List.filter_congr
      intro y hy
      have hyx : y ≠ x := by
        rintro rfl
        exact h.chain.not_free hmem hy
      rw [h.free, hnew]
      simp [hyx]
    rw [freeClusters_relink (List.nodup_cons.mpr ⟨hxnew, hnodup⟩) (valid_of_free h.max hsub),
      hfilter, filter_notMem_take v.freeClusters_nodup, h.free, List.drop_drop]
  refine ⟨_, _, hext, hget, ?_, ⟨hsame.bytesPerCluster.trans h.bytes, h.pos,
    hsame.numFatEntries ▸ h.max, hchain, hfree, hroom, ⟨?_, Nat.zero_le _⟩, ?_⟩⟩
  · refine ⟨hsame.1, hsame.2, hsame.3, fun y hy => ?_, fun y _ => by rw [hsame.data]⟩
    apply happ.fat y
    · intro hlast
      exact hy (List.take_subset _ _ (List.mem_of_getLast? hlast))
    · intro hin
      exact hy (List.drop_subset _ _ (List.take_subset _ _ (hnew ▸ hin)))
  · dsimp only
    omega
  · intro i y hy k hk
    rw [hsame.data]
    exact h.content i y hy k hk

/-- The start of the loop body moves the cursor as the stream does, if there are clusters enough. -/
theorem Stores.advance (h : v.Stores b first area s) {x left : Nat} (hx : area[s.index]? = some x)
    (hleft : 0 < left) :
    (area.length < (s.advance b left).clusters → v.advanceWrite left x s.offset = none) ∧
    ((s.advance b left).clusters ≤ area.length →
      ∃ x' v', v.advanceWrite left x s.offset = some ((x', (s.advance b left).offset), v') ∧
        area[(s.advance b left).index]? = some x' ∧ Outside v v' area ∧
        v'.Stores b first area (s.advance b left)) := by
  have hlt := h.ok.index_lt
  have hle := h.clusters_le
  have hget : (area.take s.clusters)[s.index]? = some x :=
    (List.getElem?_take_of_lt hlt).trans hx
  obtain ⟨hnext, hne⟩ := nextCluster_eq h.max h.chain hget
  unfold advanceWrite Stream.advance
  rw [h.bytes]
  by_cases hoff : s.offset = b
  · rw [if_pos hoff, if_pos hoff, hnext, Option.bind_some]
    by_cases hmid : s.index + 1 < s.clusters
    · -- the next cluster of the chain
      have hnth := List.getElem?_eq_getElem (Nat.lt_of_lt_of_le hmid hle)
      have hget' : (area.take s.clusters)[s.index + 1]? = some area[s.index + 1] :=
        (List.getElem?_take_of_lt hmid).trans hnth
      rw [if_pos hmid, hget', Option.getD_some, if_neg (hne _ hget')]
      refine ⟨fun hroom => absurd hle (Nat.not_le.mpr hroom), fun _ => ?_⟩
      exact ⟨_, v, rfl, hnth, Outside.refl v area, ⟨h.bytes, h.pos, h.max, h.chain, h.free,
        h.clusters_le, ⟨hmid, Nat.zero_le _⟩, h.content⟩⟩
    · -- the end of the chain
      have hlast : s.index + 1 = s.clusters := by omega
      obtain ⟨hfull, hstores⟩ := h.extend hx hlast (Stream.clustersFor_pos h.pos hleft)
      have hnone : (area.take s.clusters)[s.index + 1]? = none := by
        rw [List.getElem?_eq_none]
        rw [List.length_take]
        omega
      have hnum : v.numCluster left = clustersFor b left := by rw [numCluster, h.bytes]; rfl
      rw [if_neg hmid, hnone, Option.getD_none, if_pos rfl, hnum]
      refine ⟨fun hroom => ?_, fun hroom => ?_⟩
      · rw [hfull hroom]
        rfl
      · obtain ⟨x', v', heq, hx', hout, hst⟩ := hstores hroom
        rw [heq]
        exact ⟨x', v', rfl, hx', hout, hst⟩
  · rw [if_neg hoff, if_neg hoff]
    exact ⟨fun hroom => absurd hle (Nat.not_le.mpr hroom),
      fun _ => ⟨x, v, rfl, hx, Outside.refl v area, h⟩⟩

/-- Copying into the cluster of the cursor is `put`. -/
theorem Stores.put (h : v.Stores b first area s) {x n : Nat} (hx : area[s.index]? = some x)
    (hn : s.offset + n ≤ b) (src : Nat → UInt8) :
    Outside v (v.copyIn x s.offset src n) area ∧
      (v.copyIn x s.offset src n).Stores b first area (s.put b src n) := by
  have hout : Outside v (v.copyIn x s.offset src n) area :=
    ⟨rfl, rfl, rfl, fun _ _ => rfl, fun y hy => Function.update_of_ne (by
      rintro rfl
      exact hy (List.mem_of_getElem? hx)) _ _⟩
  refine ⟨hout, ⟨h.bytes, h.pos, h.max, h.chain.congr rfl fun _ _ => rfl, h.free, h.clusters_le,
    h.ok.put src hn, ?_⟩⟩
  intro i y hy k hk
  change Function.update v.data x _ y k = (if s.position b ≤ i * b + k ∧
    i * b + k < s.position b + n then src (i * b + k - s.position b) else s.content (i * b + k))
  unfold Stream.position
  by_cases hi : i = s.index
  · obtain rfl : y = x := by
      rw [hi] at hy
      exact Option.some.inj (hy.symm.trans hx)
    rw [Function.update_self, hi]
    by_cases hin : s.offset ≤ k ∧ k < s.offset + n
    · rw [if_pos hin, if_pos ⟨by omega, by omega⟩]
      congr 1
      omega
    · rw [if_neg hin, if_neg (by omega)]
      exact hi ▸ h.content i y hy k hk
  · -- another cluster: its bytes are at other positions of the file
    have hne : y ≠ x := by
      rintro rfl
      exact hi ((List.getElem?_inj (List.getElem?_eq_some_iff.mp hy).1 h.nodup).mp
        (hy.trans hx.symm))
    rw [Function.update_of_ne hne, if_neg]
    · exact h.content i y hy k hk
    · rintro ⟨hlo, hhi⟩
      rcases Nat.lt_or_gt_of_ne hi with hlt | hgt
      · have hmul := Nat.mul_le_mul_right b (Nat.succ_le_of_lt hlt)
        rw [Nat.succ_mul] at hmul
        omega
      · have hmul := Nat.mul_le_mul_right b (Nat.succ_le_of_lt hgt)
        rw [Nat.succ_mul] at hmul
        omega

/-- The loop of `Write` is the loop of the stream; it fails exactly when the free clusters run out. -/
theorem Stores.writeLoop (buf : Nat → UInt8) (len : Nat) {fuel total : Nat}
    (h : v.Stores b first area s) {x : Nat} (hx : area[s.index]? = some x)
    (hfuel : len ≤ total + fuel) {total' : Nat} {s' : Stream}
    (hrun : Stream.writeLoop b buf len fuel total s = (total', s')) :
    (area.length < s'.clusters → Volume.writeLoop buf len fuel v total x s.offset = none) ∧
    (s'.clusters ≤ area.length →
      ∃ x' v', Volume.writeLoop buf len fuel v total x s.offset =
          some ((total', x', s'.offset), v') ∧
        area[s'.index]? = some x' ∧ Outside v v' area ∧ v'.Stores b first area s') := by
  induction fuel generalizing v s x total with
  | zero =>
    cases hrun
    rw [Volume.writeLoop, if_neg (by omega)]
    exact ⟨fun hroom => absurd h.clusters_le (Nat.not_le.mpr hroom),
      fun _ => ⟨x, v, rfl, hx, Outside.refl v area, h⟩⟩
  | succ fuel ih =>
    rw [Stream.writeLoop] at hrun
    rw [Volume.writeLoop]
    by_cases hmore : total < len
    · have hleft : 0 < len - total := by omega
      obtain ⟨hfull, hadv⟩ := h.advance hx hleft
      obtain ⟨hok, hoff⟩ := h.ok.advance h.pos hleft
      rw [if_pos hmore] at hrun ⊢
      dsimp only at hrun
      generalize s.advance b (len - total) = s₁ at hrun hfull hadv hok hoff
      have hgrow := Stream.writeLoop_clusters (b := b) buf len fuel
        (total + min len (b - s₁.offset)) (s₁.put b (fun k => buf (total + k)) (min len (b - s₁.offset)))
      rw [hrun] at hgrow
      change s₁.clusters ≤ s'.clusters at hgrow
      by_cases hroom : s₁.clusters ≤ area.length
      · obtain ⟨x₁, v₁, heq, hx₁, hout₁, hst₁⟩ := hadv hroom
        obtain ⟨hout₂, hst₂⟩ := hst₁.put hx₁ (n := min len (b - s₁.offset)) (by omega)
          fun k => buf (total + k)
        obtain ⟨hnone, hsome⟩ := ih hst₂ hx₁ (by omega) hrun
        rw [heq, Option.bind_some]
        dsimp only
        rw [if_pos (hst₁.isCluster hx₁), hst₁.bytes]
        refine ⟨hnone, fun hroom' => ?_⟩
        obtain ⟨x', v', heq', hx', hout', hst'⟩ := hsome hroom'
        exact ⟨x', v', heq', hx', hout₁.trans (hout₂.trans hout'), hst'⟩
      · rw [hfull (by omega), Option.bind_none]
        exact ⟨fun _ => rfl, fun hroom' => absurd hroom' (by omega)⟩
    · rw [if_neg hmore] at hrun ⊢
      cases hrun
      exact ⟨fun hroom => absurd h.clusters_le (Nat.not_le.mpr hroom),
        fun _ => ⟨x, v, rfl, hx, Outside.refl v area, h⟩⟩

/-- A cluster outside `area` may be overwritten. -/
theorem Stores.setCluster (h : v.Stores b first area s) {c : Nat} (hc : c ∉ area)
    (bytes : Nat → UInt8) : (v.setCluster c bytes).Stores b first area s := by
  refine ⟨h.bytes, h.pos, h.max, h.chain.congr rfl fun _ _ => rfl, h.free, h.clusters_le, h.ok, ?_⟩
  intro i x hx k hk
  have hne : x ≠ c := by
    rintro rfl
    exact hc (List.mem_of_getElem? hx)
  rw [setCluster_of_ne v bytes hne]
  exact h.content i x hx k hk

/-- The cursor may stand anywhere in its cluster. -/
theorem Stores.seek (h : v.Stores b first area s) {offset : Nat} (hoff : offset ≤ b) :
    v.Stores b first area { s with offset := offset } :=
  ⟨h.bytes, h.pos, h.max, h.chain, h.free, h.clusters_le, ⟨h.ok.index_lt, hoff⟩, h.content⟩

/-- The chain made for the first bytes of an empty file. -/
theorem allocate_stores (hb : 0 < v.bytesPerCluster) (hmax : v.numFatEntries ≤ kMaxFatEntries)
    {content : Nat → UInt8} (hcontent : v.Contents v.bytesPerCluster v.freeClusters content)
    (len : Nat) :
    (v.freeClusters.length < (Stream.start v.bytesPerCluster content len).clusters →
      v.allocateClusterChain (v.numCluster len) = none) ∧
    ((Stream.start v.bytesPerCluster content len).clusters ≤ v.freeClusters.length →
      ∃ x v', v.allocateClusterChain (v.numCluster len) = some (x, v') ∧
        v.freeClusters[0]? = some x ∧ Outside v v' v.freeClusters ∧
        v'.Stores v.bytesPerCluster x v.freeClusters
          (Stream.start v.bytesPerCluster content len)) := by
  have hnum : v.numCluster len = clustersFor v.bytesPerCluster len := rfl
  rw [allocateClusterChain_eq hmax, hnum]
  unfold Stream.start
  dsimp only
  generalize clustersFor v.bytesPerCluster len = n
  have hnodup := v.freeClusters_nodup
  cases hfree : v.freeClusters with
  | nil => exact ⟨fun _ => rfl, fun h => by simp at h⟩
  | cons x rest =>
    rw [hfree] at hnodup hcontent
    rw [List.length_cons]
    dsimp only
    refine ⟨fun hroom => if_neg (by omega), fun hroom => ?_⟩
    have htake : (x :: rest).take (max 1 n) = x :: rest.take (n - 1) := by
      rw [show max 1 n = (n - 1) + 1 by omega, List.take_succ_cons]
    have hsub : x :: rest.take (n - 1) ⊆ v.freeClusters := by
      rw [hfree]
      exact List.cons_subset_cons x (List.take_subset _ _)
    have hnodup' : (x :: rest.take (n - 1)).Nodup := by
      rw [← htake]
      exact hnodup.sublist (List.take_sublist _ _)
    have hsame := relink_sameData v x (rest.take (n - 1))
    have hchain := clusterChain_fresh hmax hnodup' hsub
    have hfree' : (v.relink x (rest.take (n - 1))).freeClusters = (x :: rest).drop (max 1 n) := by
      rw [freeClusters_relink hnodup' (fun y hy => valid_of_free hmax hsub y
        (List.mem_cons_of_mem x hy)), hfree, ← htake, filter_notMem_take hnodup]
    rw [if_pos (by omega)]
    refine ⟨x, _, rfl, rfl, ?_, ⟨hsame.bytesPerCluster, hb, hsame.numFatEntries ▸ hmax, ?_, hfree',
      by simpa using hroom, ⟨by dsimp only; omega, Nat.zero_le _⟩, ?_⟩⟩
    · refine ⟨hsame.1, hsame.2, hsame.3, fun y hy => ?_, fun y _ => by rw [hsame.data]⟩
      apply relink_of_notMem
      rw [← htake]
      exact fun hin => hy (List.take_subset _ _ hin)
    · dsimp only
      rw [htake]
      exact hchain
    · intro i y hy k hk
      rw [hsame.data]
      exact hcontent i y hy k hk

end Volume

end MikanSaos
