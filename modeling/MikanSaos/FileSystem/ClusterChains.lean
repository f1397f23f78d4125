import MikanSaos.FileSystem.Volume
import MikanSaos.Reasoning.Chain
import Mathlib.Data.List.Range
import Mathlib.Data.List.Perm.Subperm

/-!
# Cluster chains — what the FAT operations do to chains and to the free clusters

`ClusterChain v c l` says that the chain from `c` is `l` and that the FAT has a cell in use for each of
its clusters.  The allocating operations take the free clusters in the order of `freeClusters`, and
write the FAT as `relink` does: one chain through the clusters taken.
-/

open Reasoning

namespace MikanSaos

/-- The largest FAT whose cluster numbers are neither `kBrokenCluster` nor end marks. -/
def kMaxFatEntries : Nat := 0x0ffffff7

namespace Volume

/-- The chain from `c` is `l`: acyclic, in the data area, of cells in use, and closed by an end mark. -/
structure ClusterChain (v : Volume) (c : Nat) (l : List Nat) : Prop where
  chain : Chain v.fat (isEndOfClusterchain · = true) c l
  valid : ∀ x ∈ l, v.IsCluster x ∧ v.fat x ≠ 0

/-- The clusters of the file of an entry: a chain, or none. -/
def FileChain (v : Volume) (p : EntryPtr) (l : List Nat) : Prop :=
  v.firstCluster p = 0 ∧ l = [] ∨ v.ClusterChain (v.firstCluster p) l

def freeFrom (v : Volume) (candidate n : Nat) : List Nat :=
  (List.range' candidate n).filter fun x => v.fat x = 0

/-- The free clusters in the order in which they are allocated. -/
def freeClusters (v : Volume) : List Nat := v.freeFrom 2 (v.numFatEntries - 2)

/-- Redirect the FAT so that the chain goes from `c` through `l` and ends. -/
def relink : Volume → Nat → List Nat → Volume
  | v, c, [] => v.setFAT c kEndOfClusterchain
  | v, c, x :: l => relink (v.setFAT c x) x l

variable {v : Volume} {c x : Nat} {l : List Nat}

theorem mem_freeClusters : x ∈ v.freeClusters ↔ v.IsCluster x ∧ v.fat x = 0 := by
  unfold freeClusters freeFrom IsCluster
  rw [List.mem_filter, List.mem_range'_1, decide_eq_true_eq]
  constructor
  · rintro ⟨⟨hlo, hhi⟩, hfree⟩
    exact ⟨⟨hlo, by omega⟩, hfree⟩
  · rintro ⟨⟨hlo, hhi⟩, hfree⟩
    exact ⟨⟨hlo, by omega⟩, hfree⟩

theorem freeClusters_nodup (v : Volume) : v.freeClusters.Nodup :=
  (List.nodup_range' _).filter _

/-! ## Setting cells -/

@[simp] theorem setFAT_self (v : Volume) (c value : Nat) :
    (v.setFAT c value).fat c = value % 2 ^ 32 := Function.update_self ..

theorem setFAT_of_ne (v : Volume) (value : Nat) (h : x ≠ c) :
    (v.setFAT c value).fat x = v.fat x := Function.update_of_ne h ..

theorem setFAT_setFAT (v : Volume) (c value value' : Nat) :
    (v.setFAT c value).setFAT c value' = v.setFAT c value' := by
  unfold setFAT
  rw [Function.update_idem]

/-- The parts of a volume that the FAT operations leave alone. -/
structure SameData (v v' : Volume) : Prop where
  bytesPerCluster : v'.bytesPerCluster = v.bytesPerCluster
  numFatEntries : v'.numFatEntries = v.numFatEntries
  rootCluster : v'.rootCluster = v.rootCluster
  data : v'.data = v.data

theorem SameData.refl (v : Volume) : SameData v v := ⟨rfl, rfl, rfl, rfl⟩

theorem relink_sameData (v : Volume) (c : Nat) (l : List Nat) : SameData v (v.relink c l) := by
  induction l generalizing v c with
  | nil => exact ⟨rfl, rfl, rfl, rfl⟩
  | cons x l ih =>
    have h := ih (v.setFAT c x) x
    exact ⟨h.1, h.2, h.3, h.4⟩

theorem relink_of_notMem (v : Volume) (h : x ∉ c :: l) : (v.relink c l).fat x = v.fat x := by
  induction l generalizing v c with
  | nil => exact setFAT_of_ne _ _ (List.ne_of_not_mem_cons h)
  | cons y l ih =>
    rw [relink, ih _ (List.not_mem_of_not_mem_cons h), setFAT_of_ne _ _ (List.ne_of_not_mem_cons h)]

/-- The first cell is overwritten, so what it held does not matter. -/
theorem relink_setFAT (v : Volume) (c value : Nat) (l : List Nat) :
    (v.setFAT c value).relink c l = v.relink c l := by
  cases l with
  | nil => rw [relink, relink, setFAT_setFAT]
  | cons x l => rw [relink, relink, setFAT_setFAT]

theorem relink_chain (v : Volume) (hnodup : (c :: l).Nodup) (hmax : ∀ x ∈ l, x < 0x0ffffff8) :
    Chain (v.relink c l).fat (isEndOfClusterchain · = true) c (c :: l) := by
  induction l generalizing v c with
  | nil =>
    refine .last ?_
    rw [relink, setFAT_self]
    rfl
  | cons x l ih =>
    have hx := hmax x List.mem_cons_self
    have hc : (v.relink c (x :: l)).fat c = x := by
      rw [relink, relink_of_notMem _ (List.nodup_cons.mp hnodup).1, setFAT_self,
        Nat.mod_eq_of_lt (by omega)]
    have hrest := ih (v.setFAT c x) (List.nodup_cons.mp hnodup).2
      fun y hy => hmax y (List.mem_cons_of_mem x hy)
    refine .link ?_ ?_
    · rw [hc]
      simpa [isEndOfClusterchain] using hx
    · rw [hc]
      exact hrest

/-- Every cell written holds a cluster or an end mark. -/
theorem relink_ne_zero (v : Volume) (hnodup : (c :: l).Nodup)
    (hvalid : ∀ x ∈ l, 2 ≤ x ∧ x < 0x0ffffff8) (hx : x ∈ c :: l) : (v.relink c l).fat x ≠ 0 := by
  induction l generalizing v c with
  | nil =>
    rw [List.mem_singleton.mp hx, relink, setFAT_self]
    decide
  | cons y l ih =>
    rcases List.mem_cons.mp hx with rfl | hx
    · have hy := hvalid y List.mem_cons_self
      rw [relink, relink_of_notMem _ (List.nodup_cons.mp hnodup).1, setFAT_self,
        Nat.mod_eq_of_lt (by omega)]
      omega
    · exact ih _ (List.nodup_cons.mp hnodup).2 (fun z hz => hvalid z (List.mem_cons_of_mem y hz)) hx

/-! ## Walking to the end of a chain -/

theorem getFAT_of_isCluster (h : v.IsCluster c) : v.getFAT c = some (v.fat c) := if_pos h.2

theorem ClusterChain.nodup (h : v.ClusterChain c l) : l.Nodup := h.chain.nodup

theorem ClusterChain.head_valid (h : v.ClusterChain c l) : v.IsCluster c ∧ v.fat c ≠ 0 :=
  h.valid c h.chain.head_mem

theorem ClusterChain.tail (h : v.ClusterChain c (c :: l)) (hl : l ≠ []) :
    v.ClusterChain (v.fat c) l := by
  refine ⟨?_, fun x hx => h.valid x (List.mem_cons_of_mem c hx)⟩
  cases h.chain with
  | last => exact absurd rfl hl
  | link _ ht => exact ht

theorem ClusterChain.unique {m : List Nat} (h : v.ClusterChain c l) (h' : v.ClusterChain c m) : l = m :=
  h.chain.unique h'.chain

theorem ClusterChain.ne_zero (h : v.ClusterChain c l) : c ≠ 0 := by
  have hcluster := h.head_valid.1.1
  omega

variable {p : EntryPtr}

theorem FileChain.clusterChain (h : v.FileChain p l) (hne : v.firstCluster p ≠ 0) :
    v.ClusterChain (v.firstCluster p) l := h.resolve_left fun hz => hne hz.1

theorem FileChain.eq_nil (h : v.FileChain p l) (hz : v.firstCluster p = 0) : l = [] := by
  rcases h with ⟨-, rfl⟩ | hl
  · rfl
  · exact absurd hz hl.ne_zero

/-- A file with a cluster has a chain. -/
theorem FileChain.of_mem (h : v.FileChain p l) (hx : x ∈ l) :
    v.ClusterChain (v.firstCluster p) l :=
  h.resolve_left fun hnil => List.not_mem_nil (hnil.2 ▸ hx)

theorem FileChain.unique {m : List Nat} (h : v.FileChain p l) (h' : v.FileChain p m) : l = m := by
  by_cases hz : v.firstCluster p = 0
  · rw [h.eq_nil hz, h'.eq_nil hz]
  · exact (h.clusterChain hz).unique (h'.clusterChain hz)

/-- The chain from one of its clusters on is its rest. -/
theorem ClusterChain.from (h : v.ClusterChain c l) (hx : x ∈ l) :
    ∃ pre l', l = pre ++ l' ∧ v.ClusterChain x l' := by
  obtain ⟨pre, l', rfl, hchain⟩ := h.chain.suffix hx
  exact ⟨pre, l', rfl, hchain, fun y hy => h.valid y (List.mem_append_right pre hy)⟩

theorem ClusterChain.length_le (h : v.ClusterChain c l) : l.length ≤ v.numFatEntries := by
  have hsub : l ⊆ List.range v.numFatEntries := fun x hx =>
    List.mem_range.mpr (h.valid x hx).1.2
  simpa using (h.nodup.subperm hsub).length_le

theorem ClusterChain.not_free (h : v.ClusterChain c l) (hx : x ∈ l) : x ∉ v.freeClusters :=
  fun hfree => (h.valid x hx).2 (mem_freeClusters.mp hfree).2

theorem lastCluster_eq (h : v.ClusterChain c l) {fuel : Nat} (hfuel : l.length ≤ fuel) :
    v.lastCluster fuel c = l.getLast? := by
  obtain ⟨hchain, hvalid⟩ := h
  induction hchain generalizing fuel with
  | @last c hs =>
    obtain ⟨fuel, rfl⟩ : ∃ k, fuel = k + 1 := ⟨fuel - 1, by simp at hfuel; omega⟩
    rw [lastCluster, getFAT_of_isCluster (hvalid c List.mem_cons_self).1, Option.bind_some, if_pos hs,
      List.getLast?_singleton]
  | @link c l hn hl ih =>
    obtain ⟨fuel, rfl⟩ : ∃ k, fuel = k + 1 := ⟨fuel - 1, by simp at hfuel; omega⟩
    obtain ⟨t, rfl⟩ := hl.exists_cons
    rw [lastCluster, getFAT_of_isCluster (hvalid c List.mem_cons_self).1, Option.bind_some, if_neg hn,
      List.getLast?_cons_cons]
    exact ih (by simpa using hfuel) fun x hx => hvalid x (List.mem_cons_of_mem c hx)

/-! ## Taking free clusters -/

theorem freeFrom_succ (v : Volume) (candidate n : Nat) :
    v.freeFrom candidate (n + 1) =
      if v.fat candidate = 0 then candidate :: v.freeFrom (candidate + 1) n
      else v.freeFrom (candidate + 1) n := by
  unfold freeFrom
  rw [List.range'_succ]
  by_cases hfree : v.fat candidate = 0
  · rw [List.filter_cons_of_pos (by simpa using hfree), if_pos hfree]
  · rw [List.filter_cons_of_neg (by simpa using hfree), if_neg hfree]

/-- The search of `ExtendCluster` links the first free clusters it meets. -/
theorem linkFree_eq (fuel : Nat) (v : Volume) {candidate current n : Nat}
    (hpos : 0 < candidate) (hmax : candidate + fuel ≤ 2 ^ 32)
    (hcurrent : v.fat current ≠ 0 ∨ current < candidate) :
    (linkFree fuel v candidate current n).map
      (fun (last, v) => (last, v.setFAT last kEndOfClusterchain)) =
      if n ≤ (v.freeFrom candidate fuel).length then
        some (((v.freeFrom candidate fuel).take n).getLastD current,
          v.relink current ((v.freeFrom candidate fuel).take n))
      else none := by
  induction fuel generalizing v candidate current n with
  | zero =>
    cases n with
    | zero => simp [linkFree, freeFrom, relink]
    | succ n => simp [linkFree, freeFrom]
  | succ fuel ih =>
    cases n with
    | zero => simp [linkFree, relink]
    | succ n =>
      rw [linkFree, freeFrom_succ]
      by_cases hfree : v.fat candidate = 0
      · -- the cell of `current` is not free any more, but it was not ahead of the search either
        have hsame : (v.setFAT current candidate).freeFrom (candidate + 1) fuel =
            v.freeFrom (candidate + 1) fuel := by
          apply List.filter_congr
          intro x hx
          rw [List.mem_range'_1] at hx
          by_cases hxc : x = current
          · subst hxc
            have hne : v.fat x ≠ 0 := by
              rcases hcurrent with h | h
              · exact h
              · omega
            rw [setFAT_self, Nat.mod_eq_of_lt (by omega)]
            simp only [hne, decide_false, decide_eq_false_iff_not]
            omega
          · rw [setFAT_of_ne _ _ hxc]
        rw [if_neg (by simpa using hfree), if_pos hfree,
          ih (v.setFAT current candidate) (by omega) (by omega) (.inr (by omega)), hsame]
        simp only [List.length_cons, Nat.add_le_add_iff_right, List.take_succ_cons, relink,
          List.getLastD_cons]
      · rw [if_pos hfree, if_neg hfree]
        exact ih v (by omega) (by omega) (hcurrent.imp id (by omega))

theorem extendCluster_eq (hmax : v.numFatEntries ≤ kMaxFatEntries) (h : v.ClusterChain c l)
    {e : Nat} (he : l.getLast? = some e) (n : Nat) :
    v.extendCluster c n =
      if n ≤ v.freeClusters.length then
        some ((v.freeClusters.take n).getLastD e, v.relink e (v.freeClusters.take n))
      else none := by
  have hused := (h.valid e (List.mem_of_getLast? he)).2
  unfold kMaxFatEntries at hmax
  rw [extendCluster, lastCluster_eq h h.length_le, he, Option.bind_some]
  exact linkFree_eq _ v (by omega) (by omega) (.inl hused)

theorem firstFree_eq (fuel : Nat) (v : Volume) (candidate : Nat) :
    v.firstFree fuel candidate = (v.freeFrom candidate fuel).head? := by
  induction fuel generalizing candidate with
  | zero => simp [firstFree, freeFrom]
  | succ fuel ih =>
    rw [firstFree, freeFrom_succ]
    by_cases hfree : v.fat candidate = 0
    · rw [if_pos hfree, if_pos hfree, List.head?_cons]
    · rw [if_neg hfree, if_neg hfree, ih]

/-! ## Longer chains, new chains and freed chains -/

/-- The clusters of a list are valid numbers, so no cell that `relink` writes is mistaken. -/
theorem valid_of_free (hmax : v.numFatEntries ≤ kMaxFatEntries) (hfree : l ⊆ v.freeClusters) :
    ∀ x ∈ l, 2 ≤ x ∧ x < 0x0ffffff8 := by
  intro x hx
  have h := (mem_freeClusters.mp (hfree hx)).1
  unfold IsCluster at h
  unfold kMaxFatEntries at hmax
  omega

theorem freeClusters_relink (hnodup : (c :: l).Nodup) (hvalid : ∀ x ∈ l, 2 ≤ x ∧ x < 0x0ffffff8) :
    (v.relink c l).freeClusters = v.freeClusters.filter (· ∉ c :: l) := by
  unfold freeClusters freeFrom
  rw [(relink_sameData v c l).numFatEntries, List.filter_filter]
  apply List.filter_congr
  intro x _
  by_cases hx : x ∈ c :: l
  · simp [relink_ne_zero v hnodup hvalid hx, hx]
  · simp [relink_of_notMem v hx, hx]

theorem filter_notMem_take {α : Type} [DecidableEq α] {l : List α} (h : l.Nodup) (n : Nat) :
    l.filter (· ∉ l.take n) = l.drop n := by
  have hsplit := List.take_append_drop n l
  have hdisj := List.disjoint_of_nodup_append (hsplit.symm ▸ h)
  calc l.filter (· ∉ l.take n)
      = (l.take n ++ l.drop n).filter (· ∉ l.take n) := by rw [hsplit]
    _ = l.drop n := by
      rw [List.filter_append, List.filter_eq_nil_iff.mpr, List.nil_append, List.filter_eq_self.mpr]
      · exact fun x hx => decide_eq_true fun hx' => hdisj hx' hx
      · exact fun x hx => by simpa using hx

/-- A chain of clusters in use, extended by free clusters. -/
theorem ClusterChain.extend (hmax : v.numFatEntries ≤ kMaxFatEntries) (h : v.ClusterChain c l)
    {e : Nat} (he : l.getLast? = some e) {new : List Nat} (hnew : new ≠ []) (hnodup : new.Nodup)
    (hfree : new ⊆ v.freeClusters) : (v.relink e new).ClusterChain c (l ++ new) := by
  have hmem := List.mem_of_getLast? he
  have hnotNew : ∀ x ∈ l, x ∉ new := fun x hx hxn => h.not_free hx (hfree hxn)
  have hnodup' : (e :: new).Nodup := List.nodup_cons.mpr ⟨hnotNew e hmem, hnodup⟩
  have hvalid := valid_of_free hmax hfree
  have hsame := relink_sameData v e new
  have hchain := relink_chain v hnodup' fun x hx => (hvalid x hx).2
  obtain ⟨x, rest, rfl⟩ := List.exists_cons_of_ne_nil hnew
  cases hchain with
  | link hstop htail =>
    obtain ⟨t, heq⟩ := htail.exists_cons
    have hx : (v.relink e (x :: rest)).fat e = x := (List.cons.inj heq).1.symm
    rw [hx] at hstop htail
    refine ⟨h.chain.append he hstop htail hx ?_, ?_⟩
    · intro y hy hne
      exact relink_of_notMem v (List.not_mem_cons_of_ne_of_not_mem hne (hnotNew y hy))
    · intro y hy
      unfold IsCluster
      rw [hsame.numFatEntries]
      rcases List.mem_append.mp hy with hy | hy
      · refine ⟨(h.valid y hy).1, ?_⟩
        by_cases hye : y = e
        · exact relink_ne_zero v hnodup' hvalid (hye ▸ List.mem_cons_self)
        · rw [relink_of_notMem v (List.not_mem_cons_of_ne_of_not_mem hye (hnotNew y hy))]
          exact (h.valid y hy).2
      · exact ⟨(mem_freeClusters.mp (hfree hy)).1,
          relink_ne_zero v hnodup' hvalid (List.mem_cons_of_mem e hy)⟩

/-- A new chain of clusters that were free. -/
theorem clusterChain_fresh (hmax : v.numFatEntries ≤ kMaxFatEntries) (hnodup : (c :: l).Nodup)
    (hfree : c :: l ⊆ v.freeClusters) : (v.relink c l).ClusterChain c (c :: l) := by
  have hvalid := valid_of_free hmax hfree
  have hvalid' : ∀ x ∈ l, 2 ≤ x ∧ x < 0x0ffffff8 := fun x hx =>
    hvalid x (List.mem_cons_of_mem c hx)
  refine ⟨relink_chain v hnodup fun x hx => (hvalid' x hx).2, fun x hx => ?_⟩
  have hx' := (mem_freeClusters.mp (hfree hx)).1
  unfold IsCluster at hx' ⊢
  rw [(relink_sameData v c l).numFatEntries]
  exact ⟨hx', relink_ne_zero v hnodup hvalid' hx⟩

theorem ClusterChain.congr {v' : Volume} (h : v.ClusterChain c l)
    (hsize : v'.numFatEntries = v.numFatEntries) (hsame : ∀ x ∈ l, v'.fat x = v.fat x) :
    v'.ClusterChain c l := by
  refine ⟨h.chain.congr hsame, fun x hx => ?_⟩
  unfold IsCluster
  rw [hsize, hsame x hx]
  exact h.valid x hx

theorem allocateClusterChain_eq (hmax : v.numFatEntries ≤ kMaxFatEntries) (n : Nat) :
    v.allocateClusterChain n =
      match v.freeClusters with
      | [] => none
      | x :: rest =>
        if n - 1 ≤ rest.length then some (x, v.relink x (rest.take (n - 1))) else none := by
  unfold allocateClusterChain
  rw [firstFree_eq]
  change (v.freeClusters.head?).bind _ = _
  have hnodup := v.freeClusters_nodup
  cases hfree : v.freeClusters with
  | nil => rfl
  | cons x rest =>
    rw [hfree] at hnodup
    have hsub : [x] ⊆ v.freeClusters := by rw [hfree]; exact List.cons_subset_cons x (List.nil_subset _)
    have hchain : (v.relink x []).ClusterChain x [x] :=
      clusterChain_fresh hmax (List.nodup_singleton x) hsub
    have hrest : (v.relink x []).freeClusters = rest := by
      have hdrop := filter_notMem_take hnodup 1
      rw [freeClusters_relink (List.nodup_singleton x) (by simp), hfree]
      simpa using hdrop
    rw [List.head?_cons, Option.bind_some]
    dsimp only
    by_cases hn : 1 < n
    · have hext := extendCluster_eq (v := v.relink x []) hmax hchain (List.getLast?_singleton) (n - 1)
      rw [hrest] at hext
      rw [if_pos hn]
      change ((v.relink x []).extendCluster x (n - 1)).map _ = _
      rw [hext]
      by_cases hlen : n - 1 ≤ rest.length
      · rw [if_pos hlen, if_pos hlen, Option.map_some, relink, relink_setFAT]
      · rw [if_neg hlen, if_neg hlen, Option.map_none]
    · have hzero : n - 1 = 0 := by omega
      rw [if_neg hn, hzero, if_pos (Nat.zero_le _), List.take_zero]
      rfl

/-- `FreeCluster` clears the cells of the chain, and no other. -/
theorem freeCluster_eq (h : v.ClusterChain c l) {fuel : Nat} (hfuel : l.length ≤ fuel) :
    freeCluster fuel v c = some { v with fat := fun x => if x ∈ l then 0 else v.fat x } := by
  obtain ⟨hchain, hvalid⟩ := h
  induction hchain generalizing fuel with
  | @last c hs =>
    obtain ⟨fuel, rfl⟩ : ∃ k, fuel = k + 1 := ⟨fuel - 1, by simp at hfuel; omega⟩
    rw [freeCluster, getFAT_of_isCluster (hvalid c List.mem_cons_self).1, Option.bind_some,
      if_pos (.inl hs), setFAT]
    congr 2
    funext x
    by_cases hx : x = c
    · simp [hx]
    · simp [hx]
  | @link c l hn hl ih =>
    obtain ⟨fuel, rfl⟩ : ∃ k, fuel = k + 1 := ⟨fuel - 1, by simp at hfuel; omega⟩
    have hnext := (hvalid _ (List.mem_cons_of_mem c hl.head_mem)).1
    have hstop : ¬ (isEndOfClusterchain (v.fat c) = true ∨ v.fat c = 0) := by
      rintro (h | h)
      · exact hn h
      · rw [h] at hnext
        exact absurd hnext.1 (by decide)
    rw [freeCluster, getFAT_of_isCluster (hvalid c List.mem_cons_self).1, Option.bind_some,
      if_neg hstop, ih (by simpa using hfuel) fun x hx => hvalid x (List.mem_cons_of_mem c hx),
      Option.map_some, setFAT]
    congr 2
    funext x
    by_cases hx : x = c
    · simp [hx]
    · simp [hx]

/-- `NextCluster` inside a chain, and at its end. -/
theorem nextCluster_eq (hmax : v.numFatEntries ≤ kMaxFatEntries) (h : v.ClusterChain c l) {i : Nat}
    (hi : l[i]? = some x) :
    v.nextCluster x = some (l[i + 1]?.getD kEndOfClusterchain) ∧
      ∀ y, l[i + 1]? = some y → y ≠ kEndOfClusterchain := by
  obtain ⟨hlt, rfl⟩ := List.getElem?_eq_some_iff.mp hi
  have hx := (h.valid _ (List.getElem_mem hlt)).1
  unfold nextCluster
  rw [getFAT_of_isCluster hx, Option.map_some]
  by_cases hlast : i + 1 < l.length
  · obtain ⟨hstop, hnext⟩ := h.chain.next_getElem hlast
    rw [if_neg hstop, hnext, List.getElem?_eq_getElem hlast, Option.getD_some]
    refine ⟨rfl, fun y hy => ?_⟩
    have hy' := (h.valid _ (List.getElem_mem hlast)).1.2
    rw [← Option.some.inj hy]
    unfold kMaxFatEntries at hmax
    unfold kEndOfClusterchain
    omega
  · have hend : l.getLast? = some l[i] := by
      rw [List.getLast?_eq_getElem?, List.getElem?_eq_getElem (by omega)]
      congr 2
      omega
    rw [if_pos (h.chain.stop_getLast hend), List.getElem?_eq_none (by omega)]
    exact ⟨rfl, by simp⟩

/-- The rule for the loops that go along a chain with `NextCluster`. -/
theorem ClusterChain.walk (hmax : v.numFatEntries ≤ kMaxFatEntries)
    {motive : ∀ c l, v.ClusterChain c l → Prop}
    (last : ∀ x h, v.IsCluster x → x ≠ kEndOfClusterchain → v.nextCluster x = some kEndOfClusterchain →
      motive x [x] h)
    (link : ∀ x y l h htail, v.IsCluster x → x ≠ kEndOfClusterchain → v.nextCluster x = some y →
      y ≠ kEndOfClusterchain → motive y l htail → motive x (x :: l) h)
    {c : Nat} {l : List Nat} (h : v.ClusterChain c l) : motive c l h := by
  have hne : ∀ x, v.IsCluster x → x ≠ kEndOfClusterchain := by
    rintro x hx rfl
    have := hx.2
    unfold kMaxFatEntries at hmax
    unfold kEndOfClusterchain at this
    omega
  induction l generalizing c with
  | nil => exact absurd rfl h.chain.ne_nil
  | cons x l ih =>
    obtain ⟨t, heq⟩ := h.chain.exists_cons
    obtain ⟨rfl, rfl⟩ := List.cons.inj heq
    have hcluster := h.head_valid.1
    obtain ⟨hnext, -⟩ := nextCluster_eq hmax h (i := 0) rfl
    cases l with
    | nil => exact last x h hcluster (hne x hcluster) hnext
    | cons y l =>
      have htail := h.tail (List.cons_ne_nil y l)
      obtain ⟨t, heq⟩ := htail.chain.exists_cons
      obtain ⟨hy, -⟩ := List.cons.inj heq
      rw [← hy] at htail
      exact link x y (y :: l) h htail hcluster (hne x hcluster) hnext (hne y htail.head_valid.1) (ih htail)

/-! ## The two allocating operations -/

/-- The chain from `c` that was `l` goes on through `new`, which were free; the end of `l` and `new` are
all that is written. -/
structure Appended (v v' : Volume) (c : Nat) (l new : List Nat) : Prop where
  sameData : SameData v v'
  free : new ⊆ v.freeClusters
  nodup : new.Nodup
  chain : v'.ClusterChain c (l ++ new)
  fat : ∀ x, l.getLast? ≠ some x → x ∉ new → v'.fat x = v.fat x

/-- The end of a chain from one of its clusters on. -/
theorem ClusterChain.from_getLast? (h : v.ClusterChain c l) (hx : x ∈ l) :
    ∃ l' e, v.ClusterChain x l' ∧ l'.getLast? = some e ∧ l.getLast? = some e := by
  obtain ⟨pre, l', rfl, hfrom⟩ := h.from hx
  have hlast := List.getLast?_eq_some_getLast hfrom.chain.ne_nil
  exact ⟨l', _, hfrom, hlast, by rw [List.getLast?_append, hlast]; rfl⟩

theorem ClusterChain.appended (hmax : v.numFatEntries ≤ kMaxFatEntries) (h : v.ClusterChain c l)
    {e : Nat} (he : l.getLast? = some e) {new : List Nat} (hnodup : new.Nodup)
    (hfree : new ⊆ v.freeClusters) : Appended v (v.relink e new) c l new := by
  refine ⟨relink_sameData v e new, hfree, hnodup, ?_, fun x hx hnew => ?_⟩
  · by_cases hne : new = []
    · -- only the mark at the end is written
      subst hne
      rw [List.append_nil]
      refine ⟨h.chain.close he ?_ fun x _ hx => setFAT_of_ne v _ hx, fun x hx => ⟨(h.valid x hx).1, ?_⟩⟩
      · rw [relink, setFAT_self]
        rfl
      · by_cases hxe : x = e
        · rw [hxe, relink, setFAT_self]
          decide
        · rw [relink, setFAT_of_ne v _ hxe]
          exact (h.valid x hx).2
    · exact h.extend hmax he hne hnodup hfree
  · apply relink_of_notMem
    rintro (_ | ⟨_, hin⟩)
    · exact hx he
    · exact hnew hin

/-- Cell 0 is no link. -/
theorem Appended.fat_zero {v' : Volume} {new : List Nat} (h : Appended v v' c l new)
    (hl : v.ClusterChain c l) : v'.fat 0 = v.fat 0 := by
  apply h.fat
  · intro hlast
    have hcluster := (hl.valid 0 (List.mem_of_getLast? hlast)).1.1
    omega
  · intro hnew
    have hcluster := (mem_freeClusters.mp (h.free hnew)).1.1
    omega

/-- `ExtendCluster` from any cluster of the chain. -/
theorem ClusterChain.extendCluster_of_mem (hmax : v.numFatEntries ≤ kMaxFatEntries)
    (h : v.ClusterChain c l) (hx : x ∈ l) {e : Nat} (he : l.getLast? = some e) (n : Nat) :
    v.extendCluster x n =
      if n ≤ v.freeClusters.length then
        some ((v.freeClusters.take n).getLastD e, v.relink e (v.freeClusters.take n))
      else none := by
  obtain ⟨l', e', hfrom, hlast', hlast⟩ := h.from_getLast? hx
  cases he.symm.trans hlast
  exact extendCluster_eq hmax hfrom hlast' n

theorem ClusterChain.extendCluster (hmax : v.numFatEntries ≤ kMaxFatEntries) (h : v.ClusterChain c l)
    (hx : x ∈ l) {n : Nat} (hn : n ≤ v.freeClusters.length) :
    ∃ last v' new, v.extendCluster x n = some (last, v') ∧ new.length = n ∧
      (l ++ new).getLast? = some last ∧ Appended v v' c l new := by
  obtain ⟨-, e, -, -, he⟩ := h.from_getLast? hx
  have hnodup := v.freeClusters_nodup.sublist (List.take_sublist n _)
  have hnew := h.appended hmax he hnodup (List.take_subset n _)
  have heq := h.extendCluster_of_mem hmax hx he n
  rw [if_pos hn] at heq
  refine ⟨_, _, v.freeClusters.take n, heq, ?_, ?_, hnew⟩
  · rw [List.length_take, Nat.min_eq_left hn]
  · rw [List.getLast?_append, he, List.getLastD_eq_getLast?]
    cases (v.freeClusters.take n).getLast? <;> rfl

theorem allocateClusterChain_fresh (hmax : v.numFatEntries ≤ kMaxFatEntries) {n : Nat} (hpos : 1 ≤ n)
    (hn : n ≤ v.freeClusters.length) :
    ∃ c v' new, v.allocateClusterChain n = some (c, v') ∧ new.length = n ∧ new ⊆ v.freeClusters ∧
      v'.ClusterChain c new ∧ SameData v v' ∧ ∀ x ∉ new, v'.fat x = v.fat x := by
  have heq := allocateClusterChain_eq hmax n
  have hnodup := v.freeClusters_nodup
  cases hfree : v.freeClusters with
  | nil =>
    rw [hfree] at hn
    exact absurd hn (by simp; omega)
  | cons x rest =>
    rw [hfree] at hn heq hnodup
    rw [List.length_cons] at hn
    dsimp only at heq
    rw [if_pos (by omega)] at heq
    have hsub : x :: rest.take (n - 1) ⊆ v.freeClusters := by
      rw [hfree]
      exact List.cons_subset_cons x (List.take_subset _ _)
    have hnew := hnodup.sublist ((List.take_sublist (n - 1) rest).cons_cons x)
    refine ⟨x, _, x :: rest.take (n - 1), heq, ?_, hfree ▸ hsub, clusterChain_fresh hmax hnew hsub,
      relink_sameData v x _, fun y hy => relink_of_notMem v hy⟩
    rw [List.length_cons, List.length_take]
    omega

/-- **Chains grow by free clusters only.**  `ExtendCluster(x, n)` appends `n` free clusters to the chain
that `x` is in and returns its new end; `AllocateClusterChain(n)` makes a chain of `n` free clusters.  No
other cell of the FAT is written, so that every other chain stays. -/
theorem chains_grow (hmax : v.numFatEntries ≤ kMaxFatEntries) :
    (∀ c l x n, v.ClusterChain c l → x ∈ l → n ≤ v.freeClusters.length →
      ∃ last v' new, v.extendCluster x n = some (last, v') ∧ new.length = n ∧
        (l ++ new).getLast? = some last ∧ Appended v v' c l new) ∧
    ∀ n, 1 ≤ n → n ≤ v.freeClusters.length →
      ∃ c v' new, v.allocateClusterChain n = some (c, v') ∧ new.length = n ∧ new ⊆ v.freeClusters ∧
        v'.ClusterChain c new ∧ (∀ x ∉ new, v'.fat x = v.fat x) ∧
        ∀ d l, v.ClusterChain d l → l.Disjoint new ∧ v'.ClusterChain d l := by
  refine ⟨fun c l x n h hx hn => h.extendCluster hmax hx hn, fun n hpos hn => ?_⟩
  obtain ⟨c, v', new, heq, hlen, hfree, hchain, hsame, hfat⟩ := allocateClusterChain_fresh hmax hpos hn
  refine ⟨c, v', new, heq, hlen, hfree, hchain, hfat, fun d l h => ?_⟩
  have hdisj : l.Disjoint new := fun x hx hnew => h.not_free hx (hfree hnew)
  exact ⟨hdisj, h.congr hsame.numFatEntries fun x hx => hfat x (hdisj hx)⟩

end Volume

open Volume

/-- A volume with the chains 2, 4 and 6, and with 3, 5 and 7 free. -/
def fragmentedVolume : Volume where
  bytesPerCluster := 32
  numFatEntries := 8
  rootCluster := 2
  fat c := if c = 2 then 4 else if c = 4 ∨ c = 6 then kEndOfClusterchain else 0
  data _ _ := 0

theorem chains_grow_fragmented : ∃ last v' new, fragmentedVolume.extendCluster 2 2 = some (last, v') ∧
    new.length = 2 ∧ ([2, 4] ++ new).getLast? = some last ∧ Appended fragmentedVolume v' 2 [2, 4] new :=
  (chains_grow (by decide)).1 2 [2, 4] 2 2
    ⟨.link (by decide) (.last (by decide)), by decide⟩ (by decide) (by decide)

end MikanSaos
