import MikanSaos.Paging.CopyPages

/-!
# CleanPages — what `CleanPageMaps` gives back

The cleaner frees what writable entries refer to, and these are the frames that the root owns.  Frames
that are shared stay, also when the prototype itself is cleaned.
-/

open Reasoning

namespace MikanSaos

open Machine LinearAddress4Level

variable {base : Nat → Prop} {owner owner' owner'' : Labels} {m m' m'' : Machine} {r t f i : Nat}
  {p : List Nat} {gone gone' : List Nat → Prop}

/-! ## One entry -/

theorem Machine.getBit_freeFrame (m : Machine) (f f' : Nat) :
    (m.freeFrame f).2.mm.getBit f' = true ↔ m.mm.getBit f' = true ∧ f' ≠ f := by
  show f' ∈ (m.mm.free f 1).2.marked ↔ f' ∈ m.mm.marked ∧ f' ≠ f
  rw [BitmapMemoryManager.marked_free, Set.mem_sdiff, Set.mem_Ico, Nat.lt_succ_iff,
    ← Nat.le_antisymm_iff, eq_comm]

namespace PageMaps

/-- The labels of a root's tree are paths of the upper half. -/
theorem upperPath (h : PageMaps base owner m) (hf : owner f = some (.place r p)) : UpperPath p ∨ p = [] := by
  induction p using List.reverseRecOn with
  | nil => exact .inr rfl
  | append_singleton p i _ => exact .inl (h.forest.attached f r p i hf).1

theorem setEntry_empty_refs (m : Machine) (t i : Nat) : (m.setEntry t i {}).refs t i = none := by
  rw [Machine.refs, Machine.setEntry_self]
  rfl

theorem plain_setEntry_empty (h : PageMaps base owner m) {t' r' i' : Nat} {p' : List Nat}
    (ht' : owner t' = some (.place r' p')) (hvalid' : UpperPath (p' ++ [i'])) (t i : Nat) :
    ((m.setEntry t i {}).tables t' i').hugePage = false ∧
      (((m.setEntry t i {}).tables t' i').present = true →
        ((m.setEntry t i {}).tables t' i').user = true) := by
  by_cases hsame : t' = t ∧ i' = i
  · obtain ⟨rfl, rfl⟩ := hsame
    rw [Machine.setEntry_self]
    exact ⟨rfl, nofun⟩
  · rw [Machine.setEntry_of_ne hsame]
    exact h.plain t' r' p' i' ht' hvalid'

/-- A shared page is let go. -/
theorem unshare (h : PageMaps base owner m) (href : m.refs t i = some (f, false)) :
    PageMaps base owner (m.setEntry t i {}) where
  forest := h.forest.unshare href (fun _ => Iff.rfl) (fun _ _ hne => Machine.refs_setEntry_of_ne hne)
    (setEntry_empty_refs m t i)
  plain _ _ _ _ ht' hvalid' := h.plain_setEntry_empty ht' hvalid' t i
  range := h.range
  freed := h.freed

/-- An owned frame below which nothing is left is freed. -/
theorem unlink (h : PageMaps base owner m) (ht : owner t = some (.place r p))
    (hvalid : UpperPath (p ++ [i])) (href : m.refs t i = some (f, true))
    (hbelow : ∀ f' i', owner f' ≠ some (.place r (p ++ [i] ++ [i']))) :
    PageMaps base (Function.update owner f none) ((m.freeFrame f).2.setEntry t i {}) where
  forest := h.forest.unlink ht hvalid href hbelow (m.getBit_freeFrame f)
    (fun _ _ hne => Machine.refs_setEntry_of_ne hne) (setEntry_empty_refs (m.freeFrame f).2 t i)
  plain t' r' p' i' ht' hvalid' := by
    have hne : t' ≠ f := by
      rintro rfl
      rw [Function.update_self] at ht'
      cases ht'
    rw [Function.update_of_ne hne] at ht'
    exact h.plain_setEntry_empty ht' hvalid' t i
  range := h.range
  freed := by
    have hmark := h.forest.used_of_place (h.forest.owning t r p i f ht hvalid href)
    exact (if_pos hmark).trans h.freed

end PageMaps

/-! ## One page map -/

/-- What a cleaner does below the place `p` of a root: the labels of the places `gone` are dropped with
their frames. -/
structure Cleaned (base : Nat → Prop) (r : Nat) (p : List Nat) (gone : List Nat → Prop) (owner : Labels)
    (m : Machine) (owner' : Labels) (m' : Machine) : Prop where
  maps : PageMaps base owner' m'
  kept : ∀ f o, owner f = some o → (∀ q, o = .place r q → ¬ gone q) → owner' f = some o
  dropped : ∀ f o, owner' f = some o → owner f = some o ∧ ∀ q, o = .place r q → ¬ gone q
  tables : ∀ t, (∀ q, owner t = some (.place r q) → ¬ p <+: q) → m'.tables t = m.tables t
  bytes : m'.bytes = m.bytes

namespace Cleaned

theorem trans {q : List Nat} (h : Cleaned base r p gone owner m owner' m')
    (h' : Cleaned base r q gone' owner' m' owner'' m'') (hq : p <+: q) :
    Cleaned base r p (fun q => gone q ∨ gone' q) owner m owner'' m'' where
  maps := h'.maps
  kept f o hf hgone := h'.kept f o (h.kept f o hf fun q ho hg => hgone q ho (.inl hg))
    fun q ho hg => hgone q ho (.inr hg)
  dropped f o hf := by
    obtain ⟨hf', hgone'⟩ := h'.dropped f o hf
    obtain ⟨hold, hgone⟩ := h.dropped f o hf'
    exact ⟨hold, fun q ho hor => hor.elim (hgone q ho) (hgone' q ho)⟩
  tables t ht := by
    rw [h'.tables t, h.tables t ht]
    intro q' hq' hpre
    exact ht q' (h.dropped t _ hq').1 (hq.trans hpre)
  bytes := h'.bytes.trans h.bytes

theorem congr (h : Cleaned base r p gone owner m owner' m')
    (hgone : ∀ f q, owner f = some (.place r q) → (gone' q ↔ gone q)) :
    Cleaned base r p gone' owner m owner' m' where
  maps := h.maps
  kept f o hf hnot := h.kept f o hf fun q ho hg => by
    subst ho
    exact hnot q rfl ((hgone f q hf).mpr hg)
  dropped f o hf := by
    obtain ⟨hold, hnot⟩ := h.dropped f o hf
    refine ⟨hold, fun q ho hg => ?_⟩
    subst ho
    exact hnot q rfl ((hgone f q hold).mp hg)
  tables := h.tables
  bytes := h.bytes

/-- What happens below a place happens below the places above. -/
theorem up {q : List Nat} (h : Cleaned base r q gone owner m owner' m') (hq : p <+: q) :
    Cleaned base r p gone owner m owner' m' where
  maps := h.maps
  kept := h.kept
  dropped := h.dropped
  tables t ht := h.tables t fun q' hq' hpre => ht q' hq' (hq.trans hpre)
  bytes := h.bytes

end Cleaned

/-- No place at or below an entry that owns nothing is taken. -/
theorem PageMaps.not_below (h : PageMaps base owner m) (ht : owner t = some (.place r p))
    (hold : ∀ f, m.refs t i ≠ some (f, true)) {q : List Nat} (hf : owner f = some (.place r q)) :
    ¬ p ++ [i] <+: q := by
  rintro ⟨rest, rfl⟩
  obtain ⟨f', hf'⟩ := h.forest.exists_prefix hf
  obtain ⟨-, t', ht', href⟩ := h.forest.attached f' r p i hf'
  rw [h.forest.place_inj ht' ht] at href
  exact hold f' href

/-- The places at and below an entry of the last level are that of its page. -/
theorem PageMaps.leaf_place (h : PageMaps base owner m) (hp : p.length = 3) {q : List Nat}
    (hf : owner f = some (.place r q)) (hpre : p ++ [i] <+: q) : q = p ++ [i] := by
  have hlength : q.length ≤ 4 := by
    rcases h.upperPath hf with hq | rfl
    · exact hq.1
    · exact Nat.zero_le 4
  refine (hpre.eq_of_length_le ?_).symm
  rw [List.length_append, hp]
  exact hlength

/-- Free the frame of an entry and clear the entry. -/
theorem PageMaps.unlink_cleaned (h : PageMaps base owner m) (ht : owner t = some (.place r p))
    (hvalid : UpperPath (p ++ [i])) (href : m.refs t i = some (f, true))
    (hbelow : ∀ f' q, owner f' = some (.place r q) → p ++ [i] <+: q → q = p ++ [i]) :
    Cleaned base r p (fun q => q = p ++ [i]) owner m (Function.update owner f none)
      ((m.freeFrame f).2.setEntry t i {}) := by
  have hf := h.forest.owning t r p i f ht hvalid href
  exact {
    maps := h.unlink ht hvalid href fun f' i' hf' => by
      have heq := hbelow f' _ hf' (List.prefix_append ..)
      simp at heq
    kept := fun f' o hf' hnot => by
      rw [Function.update_of_ne]
      · exact hf'
      · rintro rfl
        rw [hf] at hf'
        cases hf'
        exact hnot _ rfl rfl
    dropped := fun f' o hf' => by
      have hne : f' ≠ f := by
        rintro rfl
        rw [Function.update_self] at hf'
        cases hf'
      rw [Function.update_of_ne hne] at hf'
      refine ⟨hf', ?_⟩
      rintro q rfl rfl
      exact hne (h.forest.place_inj hf' hf)
    tables := fun t' ht' => by
      apply Function.update_of_ne
      rintro rfl
      exact ht' p ht List.prefix_rfl
    bytes := rfl }

/-- A cleaner of the page maps of one level. -/
def CleansPages (base : Nat → Prop) (r level : Nat) (run : Machine → Nat → Error × Machine) : Prop :=
  ∀ owner m p t, PageMaps base owner m → owner t = some (.place r p) → p.length + level = 4 →
    p ≠ [] → (run m t).1 = .kSuccess ∧
      ∃ owner', Cleaned base r p (fun q => p <+: q ∧ q ≠ p) owner m owner' (run m t).2

theorem Cleaned.refl (h : PageMaps base owner m)
    (hgone : ∀ f q, owner f = some (.place r q) → ¬ gone q) : Cleaned base r p gone owner m owner m where
  maps := h
  kept _ _ hf _ := hf
  dropped f o hf := ⟨hf, fun q ho => by subst ho; exact hgone f q hf⟩
  tables _ _ := rfl
  bytes := rfl

theorem cleanEntry_cleaned {below : Machine → Nat → Error × Machine} {level : Nat} {cleanReadonly : Bool}
    (hbelow : 0 < level → CleansPages base r level below)
    (hleaf : level = 0 → cleanReadonly = false ∧ ∀ m t, below m t = (.kSuccess, m))
    (h : PageMaps base owner m) (ht : owner t = some (.place r p)) (hlength : p.length + (level + 1) = 4)
    (hvalid : UpperPath (p ++ [i])) :
    (cleanEntry below cleanReadonly t m i).1 = .kSuccess ∧
      ∃ owner', Cleaned base r p (fun q => p ++ [i] <+: q) owner m owner'
        (cleanEntry below cleanReadonly t m i).2 := by
  unfold cleanEntry
  dsimp only
  by_cases hpresent : (m.tables t i).present = true
  · rw [if_neg (not_not.mpr hpresent)]
    have href := Machine.refs_of_present hpresent
    by_cases hown : (m.tables t i).writable = true
    · -- what is below is cleaned first, then the frame is freed
      rw [hown] at href
      have hdown : (below m (m.tables t i).addr).1 = .kSuccess ∧ ∃ owner', Cleaned base r (p ++ [i])
          (fun q => p ++ [i] <+: q ∧ q ≠ p ++ [i]) owner m owner' (below m (m.tables t i).addr).2 := by
        by_cases hlevel : level = 0
        · rw [(hleaf hlevel).2]
          refine ⟨rfl, owner, .refl h fun f' q hf' hgone => ?_⟩
          exact hgone.2 (h.leaf_place (by omega) hf' hgone.1)
        · refine hbelow (Nat.pos_of_ne_zero hlevel) owner m (p ++ [i]) _ h
            (h.forest.owning t r p i _ ht hvalid href) ?_ (by simp)
          rw [List.length_append, List.length_singleton]
          omega
      obtain ⟨hok, owner', hdown⟩ := hdown
      have hcond : (m.tables t i).writable = true ∨ cleanReadonly = true := .inl hown
      have hfreed : ((below m (m.tables t i).addr).2.freeFrame (m.tables t i).addr).1 = .kSuccess := rfl
      rw [if_neg (not_not.mpr hok), if_pos hcond, if_neg (not_not.mpr hfreed)]
      have hnot : ¬ p ++ [i] <+: p := fun hpre => by
        have hle := hpre.length_le
        rw [List.length_append, List.length_singleton] at hle
        omega
      have ht' : owner' t = some (.place r p) := by
        refine hdown.kept t _ ht fun q hq hgone => ?_
        cases hq
        exact hnot hgone.1
      have htable : (below m (m.tables t i).addr).2.tables t = m.tables t := by
        refine hdown.tables t fun q hq hpre => ?_
        rw [ht] at hq
        cases hq
        exact hnot hpre
      have href' : (below m (m.tables t i).addr).2.refs t i = some ((m.tables t i).addr, true) := by
        rw [Machine.refs, htable]
        exact href
      have hfree := hdown.maps.unlink_cleaned ht' hvalid href' fun f' q hf' hpre => by
        by_contra hne
        exact (hdown.dropped f' _ hf').2 q rfl ⟨hpre, hne⟩
      refine ⟨rfl, _, ((hdown.up (List.prefix_append ..)).trans hfree List.prefix_rfl).congr fun f' q _ => ?_⟩
      constructor
      · intro hpre
        by_cases heq : q = p ++ [i]
        · exact .inr heq
        · exact .inl ⟨hpre, heq⟩
      · intro hor
        rcases hor with hgone | rfl
        · exact hgone.1
        · exact List.prefix_rfl
    · -- a page that is only shared
      rw [Bool.eq_false_iff.mpr hown] at href
      have hshare := (h.forest.sharing t r p i _ ht hvalid href).1
      rw [LeafPath, List.length_append, List.length_singleton] at hshare
      obtain ⟨hflag, hnone⟩ := hleaf (by omega)
      have hok : (Error.kSuccess, m).1 = Error.kSuccess := rfl
      have hcond : ¬ ((m.tables t i).writable = true ∨ cleanReadonly = true) := by
        rw [hflag]
        exact fun hor => hor.elim hown (by decide)
      rw [hnone, if_neg (not_not.mpr hok), if_neg hcond, if_neg (not_not.mpr hok)]
      have hshared (f' : Nat) : m.refs t i ≠ some (f', true) := by
        rw [href]
        simp
      exact ⟨rfl, owner, {
        maps := h.unshare href
        kept := fun _ _ hf _ => hf
        dropped := fun f' o hf' => ⟨hf', fun q ho => by subst ho; exact h.not_below ht hshared hf'⟩
        tables := fun t' ht' => by
          apply Function.update_of_ne
          rintro rfl
          exact ht' p ht List.prefix_rfl
        bytes := rfl }⟩
  · rw [if_pos hpresent]
    refine ⟨rfl, owner, .refl h fun f q hf => h.not_below ht ?_ hf⟩
    rw [Machine.refs_of_absent (Bool.eq_false_iff.mpr hpresent)]
    exact fun _ => (Option.some_ne_none _).symm

/-! ## All levels -/

/-- The loop over a page map, from the first entry of the forest on. -/
theorem forEntries_cleaned (cleanReadonly : Bool) {below : Machine → Nat → Error × Machine}
    {level start : Nat} (hbelow : 0 < level → CleansPages base r level below)
    (hleaf : level = 0 → cleanReadonly = false ∧ ∀ m t, below m t = (.kSuccess, m))
    (h : PageMaps base owner m) (ht : owner t = some (.place r p)) (hlength : p.length + (level + 1) = 4)
    (hstart : start ≤ 512) (hpath : ∀ i, UpperPath (p ++ [i]) ↔ start ≤ i ∧ i < 512) :
    (forEntries (cleanEntry below cleanReadonly t) (512 - start) m).1 = .kSuccess ∧
      ∃ owner', Cleaned base r p (fun q => p <+: q ∧ q ≠ p) owner m owner'
        (forEntries (cleanEntry below cleanReadonly t) (512 - start) m).2 := by
  have hentry {f j : Nat} {q : List Nat} (hf : owner f = some (.place r q)) (hj : p ++ [j] <+: q) :
      UpperPath (p ++ [j]) := by
    obtain ⟨rest, rfl⟩ := hj
    rcases h.upperPath hf with hq | hq
    · exact hq.prefix.resolve_right (by simp)
    · simp at hq
  let inv (i : Nat) (m' : Machine) : Prop := start ≤ i ∧
    ∃ owner', Cleaned base r p (fun q => ∃ j < i, p ++ [j] <+: q) owner m owner' m'
  have hloop : (forEntries (cleanEntry below cleanReadonly t) (512 - start) m).1 = .kSuccess ∧
      inv 512 (forEntries (cleanEntry below cleanReadonly t) (512 - start) m).2 := by
    refine forEntries_ok ?_ (512 - start) (Nat.sub_le ..) m ?_
    · intro i m' hi ⟨hle, owner', hcleaned⟩
      have ht' : owner' t = some (.place r p) := by
        refine hcleaned.kept t _ ht fun q hq ⟨j, _, hpre⟩ => ?_
        cases hq
        have hlen := hpre.length_le
        rw [List.length_append, List.length_singleton] at hlen
        omega
      obtain ⟨hok, owner'', hcleaned'⟩ := cleanEntry_cleaned hbelow hleaf hcleaned.maps ht' hlength
        ((hpath i).mpr ⟨hle, hi⟩)
      refine ⟨hok, by omega, owner'', (hcleaned.trans hcleaned' List.prefix_rfl).congr fun f q _ => ?_⟩
      constructor
      · intro ⟨j, hj, hpre⟩
        by_cases heq : j = i
        · exact .inr (heq ▸ hpre)
        · exact .inl ⟨j, by omega, hpre⟩
      · intro hor
        rcases hor with ⟨j, hj, hpre⟩ | hpre
        · exact ⟨j, by omega, hpre⟩
        · exact ⟨i, Nat.lt_succ_self i, hpre⟩
    · refine ⟨by omega, owner, .refl h fun f q hf ⟨j, hj, hpre⟩ => ?_⟩
      have hvalid := (hpath j).mp (hentry hf hpre)
      omega
  obtain ⟨hok, -, owner', hcleaned⟩ := hloop
  refine ⟨hok, owner', hcleaned.congr fun f q hf => ?_⟩
  constructor
  · intro ⟨⟨rest, hrest⟩, hne⟩
    cases rest with
    | nil =>
      rw [List.append_nil] at hrest
      exact absurd hrest.symm hne
    | cons j rest =>
      have hpre : p ++ [j] <+: q := ⟨rest, by rw [← hrest, List.append_assoc]; rfl⟩
      exact ⟨j, ((hpath j).mp (hentry hf hpre)).2, hpre⟩
  · intro ⟨j, _, hpre⟩
    refine ⟨(List.prefix_append ..).trans hpre, ?_⟩
    rintro rfl
    have hlen := hpre.length_le
    rw [List.length_append, List.length_singleton] at hlen
    omega

/-- Below the first level the entries of the forest are all there are. -/
theorem UpperPath.append_iff (h : UpperPath p) (hne : p ≠ []) (hlength : p.length < 4) (i : Nat) :
    UpperPath (p ++ [i]) ↔ 0 ≤ i ∧ i < 512 := by
  constructor
  · exact fun hi => ⟨Nat.zero_le i, hi.2.1 i (List.mem_append_right p (List.mem_singleton_self i))⟩
  · intro hi
    refine ⟨?_, ?_, ?_⟩
    · rw [List.length_append, List.length_singleton]
      omega
    · intro k hk
      rcases List.mem_append.mp hk with hk | hk
      · exact h.2.1 k hk
      · rw [List.mem_singleton.mp hk]
        exact hi.2
    · rw [List.head?_append_of_ne_nil _ hne]
      exact h.2.2

theorem upperPath_singleton (i : Nat) : UpperPath ([] ++ [i]) ↔ 256 ≤ i ∧ i < 512 := by
  constructor
  · exact fun h => ⟨h.2.2 i rfl, h.2.1 i (List.mem_singleton_self i)⟩
  · intro h
    refine ⟨show 1 ≤ 4 by decide, ?_, ?_⟩
    · intro k hk
      rw [List.mem_singleton.mp hk]
      exact h.2
    · intro k hk
      cases hk
      exact h.1

/-- `CleanPageMap` from the first address of the upper half on. -/
theorem cleanPageMap_cleansPages (level : Nat) (hlevel : level < 4) (hpos : 0 < level) :
    CleansPages base r level (cleanPageMap level kUpperHalf false) := by
  induction level with
  | zero => exact absurd hpos (Nat.lt_irrefl 0)
  | succ level ih =>
    intro owner m p t h ht hlength hne
    have hstart : part kUpperHalf (level + 1) = 0 := by
      match level, hlevel with
      | 0, _ => decide
      | 1, _ => decide
      | 2, _ => decide
    have hpath : UpperPath p := (h.upperPath ht).resolve_right hne
    rw [cleanPageMap, hstart]
    refine forEntries_cleaned false (fun hpos' => ih (by omega) hpos') ?_ h ht hlength (by decide)
      (hpath.append_iff hne (by omega))
    intro hzero
    subst hzero
    exact ⟨rfl, fun _ _ => rfl⟩

/-- The cleaner gives back all that the root owns but the root itself. -/
theorem cleanRoot_cleaned (cleanReadonly : Bool) (h : PageMaps base owner m)
    (hr : owner r = some (.place r [])) :
    (cleanPageMap 4 kUpperHalf cleanReadonly m r).1 = .kSuccess ∧
      ∃ owner', Cleaned base r [] (fun q => q ≠ []) owner m owner'
        (cleanPageMap 4 kUpperHalf cleanReadonly m r).2 := by
  have hstart : part kUpperHalf 4 = 256 := by decide
  rw [cleanPageMap, hstart]
  obtain ⟨hok, owner', hcleaned⟩ := forEntries_cleaned cleanReadonly
    (fun hpos => cleanPageMap_cleansPages 3 (by decide) hpos) nofun h hr rfl (by decide) upperPath_singleton
  exact ⟨hok, owner', hcleaned.congr fun f q _ => (and_iff_right (List.nil_prefix)).symm⟩

end MikanSaos
