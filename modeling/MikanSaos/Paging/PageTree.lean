import MikanSaos.Paging.Walks
import MikanSaos.Reasoning.Paths

/-!
# PageTree — the upper half of a page map as a tree

The entries of a page map and of those below it are reached by paths of indices.  In a `PageTree` no page
map is reached by two paths and all of them are allocated; which page a frame of the last level is, and
whether it has more than one entry, does not matter.  `AddsTo` says what a call may change that only
adds to the tree of one root.
-/

open Reasoning

namespace MikanSaos

open LinearAddress4Level

variable {m m' m'' : Machine} {r t i g len vaddr : Nat} {p q : List Nat} {e : PageMapEntry}
  {step step' step'' : List Nat → PageMapEntry → PageMapEntry → Prop}

theorem UpperPath.left (h : UpperPath (p ++ q)) : UpperPath p := by
  rcases h.prefix with hp | rfl
  · exact hp
  · exact ⟨Nat.zero_le 4, nofun, nofun⟩

theorem UpperPath.length_lt (h : UpperPath (p ++ [i])) : p.length ≤ 3 := by
  have hle := h.1
  rw [List.length_append, List.length_singleton] at hle
  omega

theorem UpperPath.of_initial (h : UpperPath q) (hp : p <+: q) : UpperPath p := by
  obtain ⟨rest, rfl⟩ := hp
  exact h.left

namespace Machine

/-- The page map or page that an entry refers to. -/
def next (m : Machine) (t i : Nat) : Option Nat := (m.tables t i).target

/-- The page map, or the page, at the end of a path. -/
def follow (m : Machine) (r : Nat) (p : List Nat) : Option Nat := Paths.follow m.next r p

/-- The entry at an index of the page map at the end of a path; where there is no page map, it is that of
an empty one. -/
def entryAt (m : Machine) (r : Nat) (p : List Nat) (i : Nat) : PageMapEntry :=
  match m.follow r p with
  | some t => m.tables t i
  | none => {}

theorem entryAt_of_follow (h : m.follow r p = some t) : m.entryAt r p i = m.tables t i := by
  rw [entryAt, h]

theorem entryAt_of_none (h : m.follow r p = none) : m.entryAt r p i = {} := by
  rw [entryAt, h]

theorem follow_snoc (m : Machine) (r : Nat) (p : List Nat) (i : Nat) :
    m.follow r (p ++ [i]) = (m.entryAt r p i).target := by
  rw [follow, Paths.follow_snoc, entryAt, follow]
  cases Paths.follow m.next r p with
  | none => rfl
  | some t => rfl

theorem follow_absent (habsent : ¬ (m.entryAt r p i).present = true) : m.follow r (p ++ [i]) = none := by
  rw [follow_snoc, PageMapEntry.target, if_neg habsent]

end Machine

/-- The page maps of the upper half of `r` form a tree of allocated frames, without large pages. -/
structure PageTree (m : Machine) (r : Nat) : Prop where
  apart : ∀ p q t, UpperPath p → UpperPath q → p.length ≤ 3 → q.length ≤ 3 →
    m.follow r p = some t → m.follow r q = some t → p = q
  allocated : ∀ p t, UpperPath p → p.length ≤ 3 → m.follow r p = some t → m.mm.getBit t = true
  plain : ∀ p i, UpperPath (p ++ [i]) → p.length = 2 → (m.entryAt r p i).hugePage = false
  range : m.mm.rangeEnd ≤ 2 ^ 40

/-- `m'` adds to the tree of `r`: each entry changes as `step` says, paths of up to `len` indices lead
where they led, and what they newly lead to are frames that were free, each for one path, and empty. -/
structure AddsTo (r len : Nat) (step : List Nat → PageMapEntry → PageMapEntry → Prop)
    (m m' : Machine) : Prop where
  marks : ∀ f, m.mm.getBit f = true → m'.mm.getBit f = true
  rangeEnd : m'.mm.rangeEnd = m.mm.rangeEnd
  bytes : ∀ f, m.mm.getBit f = true → m'.bytes f = m.bytes f
  /-- Entries that do not belong to the tree, as those of the lower half, stay as they are. -/
  others : ∀ t i, m.mm.getBit t = true → (∀ p, UpperPath (p ++ [i]) → m.follow r p ≠ some t) →
    m'.tables t i = m.tables t i
  entries : ∀ p i, UpperPath (p ++ [i]) → step (p ++ [i]) (m.entryAt r p i) (m'.entryAt r p i)
  kept : ∀ p f, UpperPath p → p.length ≤ len → m.follow r p = some f → m'.follow r p = some f
  fresh : ∀ p f, UpperPath p → p.length ≤ len → m.follow r p = none → m'.follow r p = some f →
    m.mm.getBit f = false ∧ m'.mm.getBit f = true ∧ m'.bytes f = fun _ => 0
  freshApart : ∀ p q f, UpperPath p → UpperPath q → p.length ≤ len → q.length ≤ len →
    m.follow r p = none → m.follow r q = none → m'.follow r p = some f → m'.follow r q = some f → p = q

namespace AddsTo

theorem refl (hrefl : ∀ q e, step q e e) (r len : Nat) (m : Machine) : AddsTo r len step m m where
  marks _ hf := hf
  rangeEnd := rfl
  bytes _ _ := rfl
  others _ _ _ _ := rfl
  entries _ _ _ := hrefl _ _
  kept _ _ _ _ hf := hf
  fresh p f _ _ hnone hsome := by rw [hnone] at hsome; cases hsome
  freshApart p q f _ _ _ _ hnone _ hsome _ := by rw [hnone] at hsome; cases hsome

/-- What a path leads to after the first call, or a frame that was free even before it. -/
theorem free_of_new (h : AddsTo r len step m m') (hvalid : UpperPath p) (hlen : p.length ≤ len)
    {f : Nat} (hnone : m.follow r p = none) (hsome : m'.follow r p = some f) :
    m.mm.getBit f = false := (h.fresh p f hvalid hlen hnone hsome).1

theorem trans (hlen : 3 ≤ len) (hstep : ∀ q e e' e'', step q e e' → step' q e' e'' → step'' q e e'')
    (h : AddsTo r len step m m') (h' : AddsTo r len step' m' m'') : AddsTo r len step'' m m'' where
  marks f hf := h'.marks f (h.marks f hf)
  rangeEnd := h'.rangeEnd.trans h.rangeEnd
  bytes f hf := (h'.bytes f (h.marks f hf)).trans (h.bytes f hf)
  others t i ht hout := by
    have hout' : ∀ p, UpperPath (p ++ [i]) → m'.follow r p ≠ some t := by
      intro p hp hsome
      have hle : p.length ≤ len := hp.length_lt.trans hlen
      cases hfollow : m.follow r p with
      | none =>
        rw [h.free_of_new hp.left hle hfollow hsome] at ht
        cases ht
      | some f =>
        have hkept := h.kept p f hp.left hle hfollow
        rw [hsome] at hkept
        exact hout p hp (hfollow.trans hkept.symm)
    exact (h'.others t i (h.marks t ht) hout').trans (h.others t i ht hout)
  entries p i hp := hstep _ _ _ _ (h.entries p i hp) (h'.entries p i hp)
  kept p f hp hle hf := h'.kept p f hp hle (h.kept p f hp hle hf)
  fresh p f hp hle hnone hsome := by
    cases hmid : m'.follow r p with
    | none =>
      -- new in the second call
      obtain ⟨hfree, hmark, hbytes⟩ := h'.fresh p f hp hle hmid hsome
      refine ⟨?_, hmark, hbytes⟩
      by_contra hm
      rw [h.marks f (Bool.not_eq_false _ ▸ hm)] at hfree
      cases hfree
    | some f' =>
      obtain rfl : f' = f := Option.some.inj ((h'.kept p f' hp hle hmid).symm.trans hsome)
      obtain ⟨hfree, hmark, hbytes⟩ := h.fresh p f' hp hle hnone hmid
      exact ⟨hfree, h'.marks f' hmark, (h'.bytes f' hmark).trans hbytes⟩
  freshApart p q f hp hq hple hqle hpnone hqnone hpsome hqsome := by
    -- a frame that the first call took is not free for the second one
    have hclash : ∀ {p q}, UpperPath p → UpperPath q → p.length ≤ len → q.length ≤ len →
        m.follow r p = none → m'.follow r p = some f → m'.follow r q = none →
        m''.follow r q = some f → False := by
      intro p q hp hq hple hqle hpnone hpmid hqmid hqsome
      have hmark := (h.fresh p f hp hple hpnone hpmid).2.1
      rw [(h'.fresh q f hq hqle hqmid hqsome).1] at hmark
      cases hmark
    cases hpmid : m'.follow r p with
    | none =>
      cases hqmid : m'.follow r q with
      | none => exact h'.freshApart p q f hp hq hple hqle hpmid hqmid hpsome hqsome
      | some f' =>
        obtain rfl : f' = f := Option.some.inj ((h'.kept q f' hq hqle hqmid).symm.trans hqsome)
        exact (hclash hq hp hqle hple hqnone hqmid hpmid hpsome).elim
    | some f' =>
      obtain rfl : f' = f := Option.some.inj ((h'.kept p f' hp hple hpmid).symm.trans hpsome)
      cases hqmid : m'.follow r q with
      | none => exact (hclash hp hq hple hqle hpnone hpmid hqmid hqsome).elim
      | some f'' =>
        obtain rfl : f'' = f' := Option.some.inj ((h'.kept q f'' hq hqle hqmid).symm.trans hqsome)
        exact h.freshApart p q f'' hp hq hple hqle hpnone hqnone hpmid hqmid

theorem mono (hstep : ∀ q e e', step q e e' → step' q e e') (h : AddsTo r len step m m') :
    AddsTo r len step' m m' :=
  { h with entries := fun p i hp => hstep _ _ _ (h.entries p i hp) }

end AddsTo

/-- What paths of up to `k` indices lead to stays allocated. -/
theorem AddsTo.allocated {k : Nat} (hx : AddsTo r len step m m') (hk : k ≤ len)
    (hmark : ∀ p f, UpperPath p → p.length ≤ k → m.follow r p = some f → m.mm.getBit f = true) {f : Nat}
    (hp : UpperPath p) (hle : p.length ≤ k) (hsome : m'.follow r p = some f) : m'.mm.getBit f = true := by
  cases hold : m.follow r p with
  | none => exact (hx.fresh p f hp (hle.trans hk) hold hsome).2.1
  | some f' =>
    obtain rfl : f' = f := Option.some.inj ((hx.kept p f' hp (hle.trans hk) hold).symm.trans hsome)
    exact hx.marks f' (hmark p f' hp hle hold)

/-- Paths of up to `k` indices that lead apart still do. -/
theorem AddsTo.apart {k : Nat} (hx : AddsTo r len step m m') (hk : k ≤ len)
    (hmark : ∀ p f, UpperPath p → p.length ≤ k → m.follow r p = some f → m.mm.getBit f = true)
    (hapart : ∀ p q f, UpperPath p → UpperPath q → p.length ≤ k → q.length ≤ k →
      m.follow r p = some f → m.follow r q = some f → p = q) {f : Nat}
    (hp : UpperPath p) (hq : UpperPath q) (hple : p.length ≤ k) (hqle : q.length ≤ k)
    (hpf : m'.follow r p = some f) (hqf : m'.follow r q = some f) : p = q := by
  -- a new frame was free, and the old ones were not
  have hclash : ∀ {p q}, UpperPath p → UpperPath q → p.length ≤ k → q.length ≤ k →
      m.follow r p = none → m'.follow r p = some f → m.follow r q = some f → False := by
    intro p q hp hq hple hqle hnone hsome hold
    have hfree := hx.free_of_new hp (hple.trans hk) hnone hsome
    rw [hmark q f hq hqle hold] at hfree
    cases hfree
  have hsame : ∀ {q f'}, UpperPath q → q.length ≤ k → m.follow r q = some f' → m'.follow r q = some f → f' = f :=
    fun hq hqle hold hqf => Option.some.inj ((hx.kept _ _ hq (hqle.trans hk) hold).symm.trans hqf)
  cases hpold : m.follow r p with
  | none =>
    cases hqold : m.follow r q with
    | none => exact hx.freshApart p q f hp hq (hple.trans hk) (hqle.trans hk) hpold hqold hpf hqf
    | some f' =>
      obtain rfl := hsame hq hqle hqold hqf
      exact (hclash hp hq hple hqle hpold hpf hqold).elim
  | some f' =>
    obtain rfl := hsame hp hple hpold hpf
    cases hqold : m.follow r q with
    | none => exact (hclash hq hp hqle hple hqold hqf hpold).elim
    | some f'' =>
      obtain rfl := hsame hq hqle hqold hqf
      exact hapart p q f'' hp hq hple hqle hpold hqold

/-- A tree that is added to is a tree. -/
theorem PageTree.addsTo (h : PageTree m r) (hlen : 3 ≤ len) (hx : AddsTo r len step m m')
    (hplain : ∀ q e e', UpperPath q → q.length = 3 → step q e e' → e.hugePage = false → e'.hugePage = false) :
    PageTree m' r where
  apart _ _ _ hp hq hple hqle := hx.apart hlen h.allocated h.apart hp hq hple hqle
  allocated _ _ hp hle := hx.allocated hlen h.allocated hp hle
  plain p i hp hle := by
    refine hplain (p ++ [i]) _ _ hp ?_ (hx.entries p i hp) (h.plain p i hp hle)
    rw [List.length_append, hle]
    rfl
  range := by
    rw [hx.rangeEnd]
    exact h.range

/-- A root whose upper half is empty leads nowhere. -/
theorem Machine.follow_empty (hempty : ∀ i, 256 ≤ i → i < 512 → m.tables r i = {}) (hp : UpperPath p)
    (hne : p ≠ []) : m.follow r p = none := by
  cases p with
  | nil => exact absurd rfl hne
  | cons i p =>
    have hentry := hempty i (hp.2.2 i rfl) (hp.2.1 i (List.mem_cons_self ..))
    show (m.next r i).bind _ = none
    rw [Machine.next, hentry]
    rfl

theorem PageTree.of_empty (hroot : m.mm.getBit r = true) (hempty : ∀ i, 256 ≤ i → i < 512 → m.tables r i = {})
    (hrange : m.mm.rangeEnd ≤ 2 ^ 40) : PageTree m r where
  apart p q t hp hq _ _ hpt hqt := by
    have hnil {p : List Nat} (hp : UpperPath p) (hpt : m.follow r p = some t) : p = [] := by
      by_contra hne
      rw [Machine.follow_empty hempty hp hne] at hpt
      cases hpt
    rw [hnil hp hpt, hnil hq hqt]
  allocated p t hp _ hpt := by
    by_cases hne : p = []
    · rw [hne] at hpt
      exact Option.some.inj hpt ▸ hroot
    · rw [Machine.follow_empty hempty hp hne] at hpt
      cases hpt
  plain p i hp hlength := by
    have hne : p ≠ [] := List.ne_nil_of_length_pos (hlength ▸ Nat.zero_lt_two)
    rw [Machine.entryAt_of_none (Machine.follow_empty hempty hp.left hne)]
  range := hrange

/-! ## An entry is set -/

/-- An entry keeps its target. -/
theorem Machine.follow_setEntry (htarget : e.target = (m.tables t i).target) (q : List Nat) :
    (m.setEntry t i e).follow r q = m.follow r q := by
  apply Paths.follow_congr
  intro p' j b _ _
  by_cases hsame : b = t ∧ j = i
  · obtain ⟨rfl, rfl⟩ := hsame
    rw [Machine.next, Machine.setEntry_self, htarget]
    rfl
  · rw [Machine.next, Machine.setEntry_of_ne hsame]
    rfl

namespace PageTree

/-- The entry of a page map belongs to one path only. -/
theorem path_eq (h : PageTree m r) (hp : m.follow r p = some t) (hvalid : UpperPath (p ++ [i]))
    {j : Nat} (hq : m.follow r q = some t) (hvalid' : UpperPath (q ++ [j])) : q = p :=
  h.apart q p t hvalid'.left hvalid.left hvalid'.length_lt hvalid.length_lt hq hp

/-- A page map of the tree is not in a free frame. -/
theorem ne_free (h : PageTree m r) (hp : m.follow r p = some t) (hvalid : UpperPath (p ++ [i]))
    (hg : m.mm.getBit g = false) : t ≠ g := by
  rintro rfl
  rw [h.allocated p t hvalid.left hvalid.length_lt hp] at hg
  cases hg

/-- An entry of the last level leads to no page map. -/
theorem follow_setLeaf (h : PageTree m r) (hp : m.follow r p = some t) (hvalid : UpperPath (p ++ [i]))
    (hleaf : p.length = 3) (e : PageMapEntry) (hq : UpperPath q) (hqle : q.length ≤ 3) :
    (m.setEntry t i e).follow r q = m.follow r q := by
  apply Paths.follow_congr
  intro q' j b hq' hb
  have hne : ¬ (b = t ∧ j = i) := by
    rintro ⟨rfl, rfl⟩
    have hsame := h.path_eq hp hvalid hb (hq.of_initial hq')
    have hlength := hq'.length_le
    rw [hsame, List.length_append, List.length_singleton] at hlength
    omega
  rw [Machine.next, Machine.setEntry_of_ne hne]
  rfl

/-- Where the page maps are the same, one entry is another. -/
theorem entryAt_setEntry (h : PageTree m r) (hp : m.follow r p = some t) (hvalid : UpperPath (p ++ [i]))
    (hfollow : ∀ q, UpperPath q → q.length ≤ 3 → (m.setEntry t i e).follow r q = m.follow r q)
    {j : Nat} (hq : UpperPath (q ++ [j])) :
    (m.setEntry t i e).entryAt r q j = if q = p ∧ j = i then e else m.entryAt r q j := by
  have hsame := hfollow q hq.left hq.length_lt
  cases hqt : m.follow r q with
  | none =>
    rw [Machine.entryAt_of_none (hsame.trans hqt), Machine.entryAt_of_none hqt, if_neg]
    rintro ⟨rfl, -⟩
    rw [hp] at hqt
    cases hqt
  | some t' =>
    rw [Machine.entryAt_of_follow (hsame.trans hqt), Machine.entryAt_of_follow hqt]
    by_cases hentry : t' = t ∧ j = i
    · obtain ⟨rfl, rfl⟩ := hentry
      rw [Machine.setEntry_self, if_pos ⟨h.path_eq hp hvalid hqt hq, rfl⟩]
    · rw [Machine.setEntry_of_ne hentry, if_neg]
      rintro ⟨rfl, rfl⟩
      rw [hp] at hqt
      exact hentry ⟨(Option.some.inj hqt).symm, rfl⟩

/-- Setting an entry that leaves the page maps where they are. -/
theorem setEntry_addsTo (h : PageTree m r) (hrefl : ∀ q e, step q e e) (hp : m.follow r p = some t)
    (hvalid : UpperPath (p ++ [i])) (hstep : step (p ++ [i]) (m.tables t i) e)
    (hfollow : ∀ q, UpperPath q → q.length ≤ 3 → (m.setEntry t i e).follow r q = m.follow r q)
    (hlong : ∀ q, UpperPath q → q.length ≤ len → (m.setEntry t i e).follow r q = m.follow r q) :
    AddsTo r len step m (m.setEntry t i e) where
  marks _ hf := hf
  rangeEnd := rfl
  bytes _ _ := rfl
  others t' j _ hout := by
    refine Machine.setEntry_of_ne ?_
    rintro ⟨rfl, rfl⟩
    exact hout p hvalid hp
  entries q j hq := by
    rw [h.entryAt_setEntry hp hvalid hfollow hq]
    by_cases hentry : q = p ∧ j = i
    · obtain ⟨rfl, rfl⟩ := hentry
      rw [if_pos ⟨rfl, rfl⟩, Machine.entryAt_of_follow hp]
      exact hstep
    · rw [if_neg hentry]
      exact hrefl _ _
  kept q f hq hle hf := (hlong q hq hle).trans hf
  fresh q f hq hle hnone hsome := by
    rw [hlong q hq hle, hnone] at hsome
    cases hsome
  freshApart q q' f hq _ hle _ hnone _ hsome _ := by
    rw [hlong q hq hle, hnone] at hsome
    cases hsome

end PageTree

/-! ## An entry gets a new page map -/

namespace PageTree

theorem follow_new (hp : m.follow r p = some t) (habsent : (m.tables t i).present = false) :
    m.follow r (p ++ [i]) = none := by
  apply Machine.follow_absent
  rw [Machine.entryAt_of_follow hp, habsent]
  decide

variable (h : PageTree m r) (hp : m.follow r p = some t) (hvalid : UpperPath (p ++ [i]))
  (habsent : (m.tables t i).present = false) (hg : m.mm.getBit g = false) (hpresent : e.present = true)
  (haddr : e.addr = g)
include h hp hvalid habsent hg hpresent haddr

/-- The new page map is at the end of the path to its entry, and nothing is behind it. -/
theorem follow_link (hq : UpperPath q) : ((m.withPageMap g).setEntry t i e).follow r q =
    if q = p ++ [i] then some g else m.follow r q := by
  have hold := follow_new hp habsent
  have htg := h.ne_free hp hvalid hg
  induction q using List.reverseRecOn with
  | nil => rw [if_neg (by simp)]; rfl
  | append_singleton q j ih =>
    rw [Machine.follow_snoc, Machine.entryAt, ih hq.left]
    by_cases hqp : q = p ++ [i]
    · -- behind the new page map
      rw [if_pos hqp, if_neg (by rw [hqp]; simp)]
      dsimp only
      rw [Machine.setEntry_of_ne fun hand => htg hand.1.symm, Machine.tables_withPageMap, hqp]
      exact (Paths.follow_append_none hold [j]).symm
    · rw [if_neg hqp]
      cases hqt : m.follow r q with
      | none =>
        have hne : q ++ [j] ≠ p ++ [i] := by
          intro heq
          obtain ⟨rfl, -⟩ := List.append_inj' heq rfl
          rw [hp] at hqt
          cases hqt
        rw [if_neg hne]
        exact (Paths.follow_append_none hqt [j]).symm
      | some t' =>
        dsimp only
        by_cases hentry : t' = t ∧ j = i
        · -- the entry that is set
          obtain ⟨rfl, rfl⟩ := hentry
          rw [Machine.setEntry_self, if_pos (by rw [h.path_eq hp hvalid hqt hq]),
            PageMapEntry.target, if_pos hpresent, haddr]
        · have htg' := h.ne_free hqt hq hg
          have htable : (m.withPageMap g).tables t' = m.tables t' := Function.update_of_ne htg' ..
          have hne : q ++ [j] ≠ p ++ [i] := by
            intro heq
            obtain ⟨rfl, hj⟩ := List.append_inj' heq rfl
            rw [hp] at hqt
            exact hentry ⟨(Option.some.inj hqt).symm, List.singleton_inj.mp hj⟩
          rw [Machine.setEntry_of_ne hentry, htable, if_neg hne, Machine.follow_snoc,
            Machine.entryAt_of_follow hqt]

theorem entryAt_link {j : Nat} (hq : UpperPath (q ++ [j])) :
    ((m.withPageMap g).setEntry t i e).entryAt r q j =
      if q = p ∧ j = i then e else m.entryAt r q j := by
  have hold := follow_new hp habsent
  have htg := h.ne_free hp hvalid hg
  have hfollow := follow_link h hp hvalid habsent hg hpresent haddr hq.left
  by_cases hqp : q = p ++ [i]
  · -- the new page map is empty
    rw [if_pos hqp] at hfollow
    rw [Machine.entryAt_of_follow hfollow, Machine.entryAt_of_none (hqp ▸ hold), if_neg,
      Machine.setEntry_of_ne fun hand => htg hand.1.symm, Machine.tables_withPageMap]
    rintro ⟨rfl, -⟩
    simp at hqp
  · rw [if_neg hqp] at hfollow
    cases hqt : m.follow r q with
    | none =>
      rw [Machine.entryAt_of_none (hfollow.trans hqt), Machine.entryAt_of_none hqt, if_neg]
      rintro ⟨rfl, -⟩
      rw [hp] at hqt
      cases hqt
    | some t' =>
      rw [Machine.entryAt_of_follow (hfollow.trans hqt), Machine.entryAt_of_follow hqt]
      by_cases hentry : t' = t ∧ j = i
      · obtain ⟨rfl, rfl⟩ := hentry
        rw [Machine.setEntry_self, if_pos ⟨h.path_eq hp hvalid hqt hq, rfl⟩]
      · have htg' := h.ne_free hqt hq hg
        have htable : (m.withPageMap g).tables t' = m.tables t' := Function.update_of_ne htg' ..
        rw [Machine.setEntry_of_ne hentry, htable, if_neg]
        rintro ⟨rfl, rfl⟩
        rw [hp] at hqt
        exact hentry ⟨(Option.some.inj hqt).symm, rfl⟩

theorem link_addsTo (hrefl : ∀ q e, step q e e) (hstep : step (p ++ [i]) (m.tables t i) e) (len : Nat) :
    AddsTo r len step m ((m.withPageMap g).setEntry t i e) := by
  have hfollow := fun {q} (hq : UpperPath q) =>
    follow_link h hp hvalid habsent hg hpresent haddr (q := q) hq
  have hnew : ∀ q f, UpperPath q → m.follow r q = none →
      ((m.withPageMap g).setEntry t i e).follow r q = some f → q = p ++ [i] ∧ f = g := by
    intro q f hq hnone hsome
    rw [hfollow hq] at hsome
    split at hsome
    · rename_i hqp
      exact ⟨hqp, (Option.some.inj hsome).symm⟩
    · rw [hnone] at hsome
      cases hsome
  have hne : ∀ {f}, m.mm.getBit f = true → f ≠ g := by
    rintro f hf rfl
    rw [hf] at hg
    cases hg
  exact {
    marks := fun f hf => (m.getBit_withPageMap g f).mpr (.inr hf)
    rangeEnd := m.mm.setBits_rangeEnd g 1 true
    bytes := fun f hf => Function.update_of_ne (hne hf) ..
    others := fun t' j ht' hout => by
      have hentry : ¬ (t' = t ∧ j = i) := by
        rintro ⟨rfl, rfl⟩
        exact hout p hvalid hp
      exact (Machine.setEntry_of_ne hentry).trans (congrFun (Function.update_of_ne (hne ht') ..) j)
    entries := fun q j hq => by
      rw [entryAt_link h hp hvalid habsent hg hpresent haddr hq]
      by_cases hentry : q = p ∧ j = i
      · obtain ⟨rfl, rfl⟩ := hentry
        rw [if_pos ⟨rfl, rfl⟩, Machine.entryAt_of_follow hp]
        exact hstep
      · rw [if_neg hentry]
        exact hrefl _ _
    kept := fun q f hq _ hf => by
      rw [hfollow hq, if_neg, hf]
      rintro rfl
      rw [follow_new hp habsent] at hf
      cases hf
    fresh := fun q f hq _ hnone hsome => by
      obtain ⟨-, rfl⟩ := hnew q f hq hnone hsome
      exact ⟨hg, (m.getBit_withPageMap f f).mpr (.inl rfl), Function.update_self ..⟩
    freshApart := fun q q' f hq hq' _ _ hnone hnone' hsome hsome' =>
      (hnew q f hq hnone hsome).1.trans (hnew q' f hq' hnone' hsome').1.symm }

end PageTree

/-! ## The walk of the processor -/

/-- The path to the entry of a page. -/
def pagePath (vaddr : Nat) : List Nat := tablePath vaddr ++ [part vaddr 1]

namespace Machine

/-- The entry of the page of an address, with the flags of the last level only. -/
def pageEntry (m : Machine) (r vaddr : Nat) : PageMapEntry := m.entryAt r (tablePath vaddr) (part vaddr 1)

theorem follow_pagePath (m : Machine) (r vaddr : Nat) :
    m.follow r (pagePath vaddr) = (m.pageEntry r vaddr).target := m.follow_snoc ..

/-- What is there is behind entries that are there. -/
theorem present_of_initial {j : Nat} (hpresent : (m.entryAt r p j).present = true) (hq : q ++ [i] <+: p) :
    (m.entryAt r q i).present = true := by
  obtain ⟨rest, rfl⟩ := hq
  by_contra habsent
  have hempty : m.follow r (q ++ [i] ++ rest) = none := Paths.follow_append_none (follow_absent habsent) rest
  rw [entryAt_of_none hempty] at hpresent
  cases hpresent

theorem entryAt_below (h : (m.entryAt r p i).present = true) (j : Nat) :
    m.entryAt r (p ++ [i]) j = m.tables (m.entryAt r p i).addr j := by
  apply entryAt_of_follow
  rw [follow_snoc, PageMapEntry.target, if_pos h]

/-- The walk finds the entry of the page, if there is one, with the rights of all levels. -/
theorem walk_eq (m : Machine) (r vaddr : Nat)
    (hplain : (m.entryAt r [part vaddr 4, part vaddr 3] (part vaddr 2)).hugePage = false) :
    m.walk r vaddr = if (m.pageEntry r vaddr).present then
      some { m.pageEntry r vaddr with
        writable := (m.entryAt r [] (part vaddr 4)).writable &&
          (m.entryAt r [part vaddr 4] (part vaddr 3)).writable &&
          (m.entryAt r [part vaddr 4, part vaddr 3] (part vaddr 2)).writable && (m.pageEntry r vaddr).writable
        user := (m.entryAt r [] (part vaddr 4)).user && (m.entryAt r [part vaddr 4] (part vaddr 3)).user &&
          (m.entryAt r [part vaddr 4, part vaddr 3] (part vaddr 2)).user && (m.pageEntry r vaddr).user }
      else none := by
  have hentry4 : m.entryAt r [] (part vaddr 4) = m.tables r (part vaddr 4) := rfl
  have habove2 (h : (m.pageEntry r vaddr).present = true) :
      (m.entryAt r [part vaddr 4, part vaddr 3] (part vaddr 2)).present = true := present_of_initial h (List.prefix_refl _)
  have habove3 (h : (m.entryAt r [part vaddr 4, part vaddr 3] (part vaddr 2)).present = true) :
      (m.entryAt r [part vaddr 4] (part vaddr 3)).present = true := present_of_initial h (List.prefix_refl _)
  have habove4 (h : (m.entryAt r [part vaddr 4] (part vaddr 3)).present = true) :
      (m.entryAt r [] (part vaddr 4)).present = true := present_of_initial h (List.prefix_refl _)
  unfold walk
  dsimp only
  -- level by level; where an entry is missing, there is none below it
  by_cases h4 : (m.entryAt r [] (part vaddr 4)).present = true
  swap
  · rw [if_neg fun hand => h4 hand.1, if_neg fun h1 => h4 (habove4 (habove3 (habove2 h1)))]
  have hentry3 : m.entryAt r [part vaddr 4] (part vaddr 3) = _ := entryAt_below h4 (part vaddr 3)
  rw [hentry4] at h4 hentry3
  by_cases h3 : (m.entryAt r [part vaddr 4] (part vaddr 3)).present = true
  swap
  · rw [if_neg fun hand => h3 (hentry3 ▸ hand.2.1), if_neg fun h1 => h3 (habove3 (habove2 h1))]
  have hentry2 : m.entryAt r [part vaddr 4, part vaddr 3] (part vaddr 2) = _ := entryAt_below h3 (part vaddr 2)
  rw [hentry3] at h3 hentry2
  by_cases h2 : (m.entryAt r [part vaddr 4, part vaddr 3] (part vaddr 2)).present = true
  swap
  · rw [if_neg fun hand => h2 (hentry2 ▸ hand.2.2), if_neg fun h1 => h2 (habove2 h1)]
  have hentry1 : m.pageEntry r vaddr = _ := entryAt_below h2 (part vaddr 1)
  rw [hentry2] at h2 hplain hentry1
  rw [if_pos ⟨h4, h3, h2⟩, hplain, if_neg (by decide), hentry1, hentry2, hentry3, hentry4]

end Machine

theorem PageTree.plain_above (h : PageTree m r) (hv : Upper vaddr) :
    (m.entryAt r [part vaddr 4, part vaddr 3] (part vaddr 2)).hugePage = false :=
  h.plain _ _ hv.upperPath.left rfl

/-- The frame of an address is what its path leads to. -/
theorem PageTree.walk_addr (h : PageTree m r) (hv : Upper vaddr) :
    (m.walk r vaddr).map (·.addr) = m.follow r (pagePath vaddr) := by
  rw [m.walk_eq r vaddr (h.plain_above hv), Machine.follow_pagePath, PageMapEntry.target]
  split <;> rfl

end MikanSaos
