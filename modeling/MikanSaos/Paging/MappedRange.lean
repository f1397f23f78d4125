import MikanSaos.Paging.PageTree

/-!
# MappedRange — `SetupPageMaps` maps the pages it is asked for

`OnWay x q` says that the entry at the path `q` is on the way to the page number `x`.  One round of
`SetupPageMap` opens the entries on the way to the pages below one entry and returns how many pages are left
for the next ones.
-/

open Reasoning

namespace MikanSaos

open LinearAddress4Level Machine

variable {m m' : Machine} {r t i addr n level lo hi x vaddr : Nat} {p q : List Nat} {w : Bool}
  {e e' e'' : PageMapEntry}

/-! ## The entries on the way to a page -/

def OnWay (x : Nat) (q : List Nat) : Prop := pageNumber q = x / 512 ^ (4 - q.length)

/-- The entry is on the way to one of the pages from `lo` up to `hi`. -/
def Within (lo hi : Nat) (q : List Nat) : Prop := ∃ x, lo ≤ x ∧ x < hi ∧ OnWay x q

theorem pageNumber_div (p q : List Nat) (hq : ∀ i ∈ q, i < 512) :
    pageNumber (p ++ q) / 512 ^ q.length = pageNumber p := by
  induction q using List.reverseRecOn with
  | nil => rw [List.append_nil, List.length_nil, Nat.pow_zero, Nat.div_one]
  | append_singleton q i ih =>
    have hi := hq i (by simp)
    rw [← List.append_assoc, pageNumber_append, List.length_append, List.length_singleton, Nat.pow_succ',
      ← Nat.div_div_eq_div_mul, show (pageNumber (p ++ q) * 512 + i) / 512 = pageNumber (p ++ q) by omega]
    exact ih fun j hj => hq j (List.mem_append_left _ hj)

theorem OnWay.left (h : OnWay x (p ++ q)) (hvalid : UpperPath (p ++ q)) : OnWay x p := by
  have hlength := hvalid.1
  rw [List.length_append] at hlength
  have hdiv := pageNumber_div p q fun i hi => hvalid.2.1 i (List.mem_append_right p hi)
  rw [OnWay, ← hdiv, h, List.length_append, Nat.div_div_eq_div_mul, ← pow_add]
  congr 2
  omega

/-- On the way to one page the longer path goes on from the shorter one. -/
theorem OnWay.initial (hp : OnWay x p) (hq : OnWay x q) (hle : p.length ≤ q.length)
    (hpindex : ∀ i ∈ p, i < 512) (hvalid : UpperPath q) : p <+: q := by
  have hsplit := List.take_append_drop p.length q
  have htake : OnWay x (q.take p.length) := by
    rw [← hsplit] at hq hvalid
    exact hq.left hvalid
  have hlength : p.length = (q.take p.length).length := by
    rw [List.length_take]
    omega
  have hsame : pageNumber p = pageNumber (q.take p.length) := by
    rw [hp, htake, ← hlength]
  have heq := pageNumber_inj hlength hpindex (fun i hi => hvalid.2.1 i (List.mem_of_mem_take hi)) hsame
  rw [heq]
  exact List.take_prefix ..

theorem onWay_pagePath (vaddr : Nat) : OnWay (pageOf vaddr) (pagePath vaddr) := by
  have hpage : pageNumber (pagePath vaddr) = pageOf vaddr := pageNumber_tablePath vaddr
  rw [OnWay, hpage]
  exact (Nat.div_one _).symm

theorem Within.mono {lo' hi' : Nat} (h : Within lo hi q) (hlo : lo' ≤ lo) (hhi : hi ≤ hi') : Within lo' hi' q := by
  obtain ⟨x, hxlo, hxhi, hway⟩ := h
  exact ⟨x, hlo.trans hxlo, hxhi.trans_le hhi, hway⟩

/-- The entry at the index of the address is on the way to its page. -/
theorem Position.onWay (h : Position (level + 1) p addr) (hlo : (pageOf addr) / 512 ^ level = x / 512 ^ level) :
    OnWay x (p ++ [part addr (level + 1)]) := by
  have hlength := h.length
  rw [OnWay, h.entry_page, hlo, List.length_append, List.length_singleton]
  congr 2
  omega

/-! ## Entries that are made -/

/-- The flags of an entry on the way to a page that is set up. -/
structure EntryOpen (w : Bool) (q : List Nat) (e : PageMapEntry) : Prop where
  present : e.present = true
  user : e.user = true
  writable : e.writable = if q.length = 4 then w else true

/-- What may happen to an entry: it is made, if it is not there, and opened. -/
def Opens (lo hi : Nat) (w : Bool) (q : List Nat) (e e' : PageMapEntry) : Prop :=
  e' = e ∨ Within lo hi q ∧ EntryOpen w q e' ∧ e'.hugePage = e.hugePage ∧ (e.present = true → e'.addr = e.addr)

theorem Opens.refl (lo hi : Nat) (w : Bool) (q : List Nat) (e : PageMapEntry) : Opens lo hi w q e e := .inl rfl

theorem Opens.trans (h : Opens lo hi w q e e') (h' : Opens lo hi w q e' e'') : Opens lo hi w q e e'' := by
  rcases h' with rfl | ⟨hwithin, hopened', hhuge', haddr'⟩
  · exact h
  · refine .inr ⟨hwithin, hopened', ?_⟩
    rcases h with rfl | ⟨-, hopened, hhuge, haddr⟩
    · exact ⟨hhuge', haddr'⟩
    · exact ⟨hhuge'.trans hhuge, fun hpresent => (haddr' hopened.present).trans (haddr hpresent)⟩

/-- An entry that is open stays open. -/
theorem Opens.opened (h : Opens lo hi w q e e') (hopened : EntryOpen w q e) : EntryOpen w q e' := by
  rcases h with rfl | ⟨-, hopened', -⟩
  · exact hopened
  · exact hopened'

theorem Opens.hugePage (h : Opens lo hi w q e e') : e'.hugePage = e.hugePage := by
  rcases h with rfl | ⟨-, -, hhuge, -⟩
  · rfl
  · exact hhuge

abbrev Sets (r lo hi : Nat) (w : Bool) : Machine → Machine → Prop := AddsTo r 4 (Opens lo hi w)

theorem Sets.refl (r lo hi : Nat) (w : Bool) (m : Machine) : Sets r lo hi w m m :=
  AddsTo.refl (Opens.refl lo hi w) r 4 m

theorem Sets.trans {m'' : Machine} (h : Sets r lo hi w m m') (h' : Sets r lo hi w m' m'') : Sets r lo hi w m m'' :=
  AddsTo.trans (by decide) (fun _ _ _ _ => Opens.trans) h h'

theorem PageTree.sets (h : PageTree m r) (hsets : Sets r lo hi w m m') : PageTree m' r :=
  h.addsTo (by decide) hsets fun _ _ _ _ _ hopens hplain => hopens.hugePage.trans hplain

/-- An entry is made, unless no frame is left, and gets its flags. -/
theorem PageTree.makeEntry (w' : Bool) (h : PageTree m r) (hp : m.follow r p = some t) (hvalid : UpperPath (p ++ [i]))
    (hwithin : Within lo hi (p ++ [i])) (hw : w' = if (p ++ [i]).length = 4 then w else true) :
    m.setNewPageMapIfNotPresent t i = (⟨0, .kNoEnoughMemory⟩, m) ∨
    ∃ child m₁, m.setNewPageMapIfNotPresent t i = (⟨child, .kSuccess⟩, m₁) ∧
      Sets r lo hi w m (m₁.setEntry t i { m₁.tables t i with user := true, writable := w' }) ∧
      (m₁.setEntry t i { m₁.tables t i with user := true, writable := w' }).follow r (p ++ [i]) = some child ∧
      EntryOpen w (p ++ [i])
        ((m₁.setEntry t i { m₁.tables t i with user := true, writable := w' }).entryAt r p i) := by
  cases hpresent : (m.tables t i).present with
  | true =>
    -- the entry keeps its target
    have hfollow (q : List Nat) : (m.setEntry t i
        { m.tables t i with user := true, writable := w' }).follow r q = m.follow r q := by
      apply Machine.follow_setEntry
      rfl
    have hopened : EntryOpen w (p ++ [i]) { m.tables t i with user := true, writable := w' } := ⟨hpresent, rfl, hw⟩
    refine .inr ⟨_, m, Machine.setNewPageMap_present hpresent, ?_, ?_, ?_⟩
    · exact h.setEntry_addsTo (Opens.refl lo hi w) hp hvalid
        (.inr ⟨hwithin, hopened, rfl, fun _ => rfl⟩) (fun q _ _ => hfollow q) fun q _ _ => hfollow q
    · rw [hfollow, Machine.follow_snoc, Machine.entryAt_of_follow hp, PageMapEntry.target, if_pos hpresent]
    · rw [Machine.entryAt_of_follow ((hfollow p).trans hp), Machine.setEntry_self]
      exact hopened
  | false =>
    rcases Machine.setNewPageMap_absent hpresent with ⟨g, heq, hg, hlt⟩ | ⟨heq, -⟩
    · have haddr : g % 2 ^ 40 = g := Nat.mod_eq_of_lt (Nat.lt_of_lt_of_le hlt h.range)
      have htg := h.ne_free hp hvalid hg
      have htable : (m.withPageMap g).tables t i = m.tables t i :=
        congrFun (Function.update_of_ne htg ..) i
      refine .inr ⟨g, _, heq, ?_⟩
      rw [Machine.setEntry_setEntry, Machine.setEntry_self, htable]
      generalize hentry : ({ (m.tables t i).setPointer g with
        present := true, user := true, writable := w' } : PageMapEntry) = e
      have hopened : EntryOpen w (p ++ [i]) e := by
        rw [← hentry]
        exact ⟨rfl, rfl, hw⟩
      have haddr' : e.addr = g := by
        rw [← hentry]
        exact haddr
      have hstep : Opens lo hi w (p ++ [i]) (m.tables t i) e := by
        refine .inr ⟨hwithin, hopened, ?_, fun hold => ?_⟩
        · rw [← hentry]
          rfl
        · rw [hpresent] at hold
          cases hold
      refine ⟨h.link_addsTo hp hvalid hpresent hg hopened.present haddr' (Opens.refl lo hi w) hstep 4, ?_, ?_⟩
      · rw [h.follow_link hp hvalid hpresent hg hopened.present haddr' hvalid, if_pos rfl]
      · rw [h.entryAt_link hp hvalid hpresent hg hopened.present haddr' hvalid, if_pos ⟨rfl, rfl⟩]
        exact hopened
    · exact .inl heq

/-! ## One round, one page map, all levels -/

/-- The entries below `p` on the way to the pages from `lo` up to `hi` are open. -/
def OpenBelow (m : Machine) (r : Nat) (w : Bool) (p : List Nat) (lo hi : Nat) : Prop :=
  ∀ q i, UpperPath (q ++ [i]) → p <+: q → Within lo hi (q ++ [i]) → EntryOpen w (q ++ [i]) (m.entryAt r q i)

theorem OpenBelow.sets (h : OpenBelow m r w p level n) (hsets : Sets r lo hi w m m') :
    OpenBelow m' r w p level n :=
  fun q i hq hp hwithin => (hsets.entries q i hq).opened (h q i hq hp hwithin)

/-- The call opens the entries on the way to the pages up to the end of the page map, and returns how many
pages are behind it. -/
def MapsPages (r lo hi : Nat) (w : Bool) (level : Nat)
    (run : Machine → (pageMap addr num4kpages : Nat) → WithError Nat × Machine) : Prop :=
  ∀ m p t addr n, PageTree m r → m.follow r p = some t → Position level p addr → lo ≤ pageOf addr →
    n = 0 ∨ pageOf addr + n ≤ hi →
    Sets r lo hi w m (run m t addr n).2 ∧
      ((run m t addr n).1.error = .kSuccess →
        (run m t addr n).1.value = pageOf addr + n - (pageNumber p + 1) * 512 ^ level ∧
        OpenBelow (run m t addr n).2 r w p (pageOf addr)
          (min (pageOf addr + n) ((pageNumber p + 1) * 512 ^ level)))

/-- The pages of one entry are all on the way through it. -/
theorem Position.split (h : Position (level + 1) p addr) (hq : UpperPath (q ++ [i])) (hpq : p <+: q)
    (hlo : pageOf addr ≤ x) (hstop : x < (pageNumber (p ++ [part addr (level + 1)]) + 1) * 512 ^ level)
    (hway : OnWay x (q ++ [i])) :
    (q = p ∧ i = part addr (level + 1)) ∨ p ++ [part addr (level + 1)] <+: q := by
  have hpos : 0 < 512 ^ level := Nat.pow_pos (by decide)
  have hsame : pageOf addr / 512 ^ level = x / 512 ^ level := by
    apply Nat.le_antisymm (Nat.div_le_div_right hlo)
    rw [h.entry_page] at hstop
    exact Nat.lt_succ_iff.mp ((Nat.div_lt_iff_lt_mul hpos).mpr hstop)
  have hle : (p ++ [part addr (level + 1)]).length ≤ (q ++ [i]).length := by
    rw [List.length_append, List.length_append]
    exact Nat.add_le_add_right hpq.length_le 1
  have hpre := (h.onWay hsame).initial hway hle h.upperPath.2.1 hq
  rcases List.prefix_concat_iff.mp hpre with heq | hbelow
  · obtain ⟨rfl, hlast⟩ := List.append_inj' heq rfl
    exact .inl ⟨rfl, (List.singleton_inj.mp hlast).symm⟩
  · exact .inr hbelow

theorem setupEntry_maps {below : Machine → (pageMap addr num4kpages : Nat) → WithError Nat × Machine}
    (hbelow : 0 < level → MapsPages r lo hi w level below) (h : PageTree m r) (hp : m.follow r p = some t)
    (hat : Position (level + 1) p addr) (hlo : lo ≤ pageOf addr) (hn : 0 < n) (hhi : pageOf addr + n ≤ hi) :
    Sets r lo hi w m (setupEntry below (level + 1) w m t addr n).2 ∧
      ((setupEntry below (level + 1) w m t addr n).1.error = .kSuccess →
        (setupEntry below (level + 1) w m t addr n).1.value =
          pageOf addr + n - (pageNumber (p ++ [part addr (level + 1)]) + 1) * 512 ^ level ∧
        OpenBelow (setupEntry below (level + 1) w m t addr n).2 r w p (pageOf addr)
          (min (pageOf addr + n) ((pageNumber (p ++ [part addr (level + 1)]) + 1) * 512 ^ level))) := by
  have hlength := hat.length
  have hwithin : Within lo hi (p ++ [part addr (level + 1)]) := ⟨pageOf addr, hlo, by omega, hat.onWay rfl⟩
  have hleaf : (if level = 0 then w else true) =
      if (p ++ [part addr (level + 1)]).length = 4 then w else true := by
    rw [List.length_append, List.length_singleton]
    exact if_congr (by omega) rfl rfl
  have hmake := h.makeEntry (if level = 0 then w else true) hp hat.upperPath hwithin hleaf
  rw [setupEntry]
  rcases hmake with heq | ⟨child, m₁, heq, hsets, hchild, hopened⟩
  · -- no frame is left
    rw [heq]
    refine ⟨.refl .., fun hsuccess => ?_⟩
    cases hsuccess
  · rw [heq]
    dsimp only
    rw [if_neg (by decide)]
    by_cases hlevel : level = 0
    · -- one page is set up
      subst hlevel
      rw [if_pos rfl] at hsets hopened ⊢
      refine ⟨hsets, fun _ => ⟨?_, ?_⟩⟩
      · rw [hat.entry_page, Nat.pow_zero, Nat.div_one]
        dsimp only
        omega
      · rintro q i hq hpq ⟨x, hxlo, hxhi, hway⟩
        rcases hat.split hq hpq hxlo (hxhi.trans_le (Nat.min_le_right ..)) hway with ⟨rfl, rfl⟩ | hbelow
        · exact hopened
        · -- nothing is below an entry of the last level
          have hle := hbelow.length_le
          have hlt := hq.length_lt
          rw [List.length_append, List.length_singleton] at hle
          omega
    · -- the rest of the way is opened by the call for the page map below
      rw [if_neg hlevel] at hsets hchild hopened
      rw [if_neg (by omega)]
      obtain ⟨hsets', hok⟩ := hbelow (Nat.pos_of_ne_zero hlevel) _ _ _ _ n (h.sets hsets) hchild hat.below hlo
        (.inr hhi)
      split
      · rename_i herr
        exact ⟨hsets.trans hsets', fun hsuccess => absurd hsuccess herr⟩
      · refine ⟨hsets.trans hsets', fun hsuccess => ⟨(hok hsuccess).1, ?_⟩⟩
        rintro q i hq hpq ⟨x, hxlo, hxhi, hway⟩
        rcases hat.split hq hpq hxlo (hxhi.trans_le (Nat.min_le_right ..)) hway with ⟨rfl, rfl⟩ | hpre
        · exact (hsets'.entries _ _ hq).opened hopened
        · exact (hok hsuccess).2 q i hq hpre ⟨x, hxlo, hxhi, hway⟩

theorem setupEntries_maps {below : Machine → (pageMap addr num4kpages : Nat) → WithError Nat × Machine}
    (hbelow : 0 < level → MapsPages r lo hi w level below) (fuel : Nat) (h : PageTree m r)
    (hp : m.follow r p = some t) (hat : Position (level + 1) p addr) (hlo : lo ≤ pageOf addr)
    (hhi : n = 0 ∨ pageOf addr + n ≤ hi) (hfuel : 512 ≤ fuel + part addr (level + 1)) :
    Sets r lo hi w m (setupEntries below (level + 1) w fuel m t addr n).2 ∧
      ((setupEntries below (level + 1) w fuel m t addr n).1.error = .kSuccess →
        (setupEntries below (level + 1) w fuel m t addr n).1.value =
          pageOf addr + n - (pageNumber p + 1) * 512 ^ (level + 1) ∧
        OpenBelow (setupEntries below (level + 1) w fuel m t addr n).2 r w p (pageOf addr)
          (min (pageOf addr + n) ((pageNumber p + 1) * 512 ^ (level + 1)))) := by
  induction fuel generalizing m addr n with
  | zero =>
    -- there is always fuel left for the entries up to the last one
    have hlength := hat.length
    have hlt := part_succ_lt addr level (by omega)
    omega
  | succ fuel ih =>
    have hstop := hat.lt_stop
    rw [setupEntries]
    by_cases hn : 0 < n
    · rw [if_pos hn]
      have hhi' : pageOf addr + n ≤ hi := hhi.resolve_left (by omega)
      obtain ⟨hsets, hok⟩ := setupEntry_maps hbelow h hp hat hlo hn hhi'
      dsimp only
      split
      · rename_i herr
        exact ⟨hsets, fun hsuccess => absurd hsuccess herr⟩
      · rename_i herr
        obtain ⟨hvalue, hopen⟩ := hok (not_not.mp herr)
        split
        · -- the last entry of the page map
          rename_i hlast
          rw [Position.stop_last hlast] at hvalue hopen
          exact ⟨hsets, fun _ => ⟨hvalue, hopen⟩⟩
        · rename_i hlast
          have hlength := hat.length
          have hlt := part_succ_lt addr level (by omega)
          have hnext := hat.next (by omega)
          have hfirst := hat.pageOf_next (by omega)
          have hpart := hat.part_next (by omega)
          have hmid := hat.below.lt_stop
          have hstop' := hnext.lt_stop
          have hkept := hsets.kept p t hat.upperPath.left (by omega) hp
          have hleft : pageOf addr + n - (pageNumber (p ++ [part addr (level + 1)]) + 1) * 512 ^ level = 0 ∨
              pageOf (clearParts (setPart addr (level + 1) (part addr (level + 1) + 1)) level) +
                (pageOf addr + n - (pageNumber (p ++ [part addr (level + 1)]) + 1) * 512 ^ level) ≤ hi := by
            omega
          rw [hvalue]
          obtain ⟨hsets', hok'⟩ := ih (h.sets hsets) hkept hnext (by omega) hleft (by omega)
          refine ⟨hsets.trans hsets', fun hsuccess => ?_⟩
          obtain ⟨hvalue', hopen'⟩ := hok' hsuccess
          refine ⟨hvalue'.trans (by omega), ?_⟩
          rintro q i hq hpq ⟨x, hxlo, hxhi, hway⟩
          by_cases hx : x < (pageNumber (p ++ [part addr (level + 1)]) + 1) * 512 ^ level
          · -- below this entry
            exact hopen.sets hsets' q i hq hpq ⟨x, hxlo, by omega, hway⟩
          · -- below one of the next entries
            exact hopen' q i hq hpq ⟨x, by omega, by omega, hway⟩
    · rw [if_neg hn]
      refine ⟨.refl .., fun _ => ⟨?_, ?_⟩⟩
      · dsimp only
        omega
      · rintro q i - - ⟨x, hxlo, hxhi, -⟩
        omega

theorem setupPageMap_maps (level : Nat) : 0 < level → MapsPages r lo hi w level (setupPageMap w level) := by
  induction level with
  | zero => exact fun h => absurd h (Nat.lt_irrefl 0)
  | succ level ih =>
    exact fun _ _ _ _ _ _ h hp hat hlo hhi => setupEntries_maps ih 512 h hp hat hlo hhi (Nat.le_add_right ..)

/-! ## `SetupPageMaps` -/

/-- The address is in one of the `n` pages from that of `a` on. -/
def InPages (a n vaddr : Nat) : Prop := a / 4096 * 4096 ≤ vaddr ∧ vaddr < a / 4096 * 4096 + 4096 * n

theorem InPages.upper {a : Nat} (ha : Upper a) (hn : a / 4096 * 4096 + 4096 * n ≤ 2 ^ 64)
    (h : InPages a n vaddr) : Upper vaddr := by
  unfold Upper kUpperHalf at ha ⊢
  unfold InPages at h
  omega

theorem inPages_iff {a : Nat} (ha : Upper a) (hv : Upper vaddr) :
    InPages a n vaddr ↔ pageOf a ≤ pageOf vaddr ∧ pageOf vaddr < pageOf a + n := by
  have hpage := ha.pageOf_add
  have hpage' := hv.pageOf_add
  unfold InPages
  omega

/-- The entries on the way to the pages of a range are those on the paths of its addresses. -/
theorem within_iff {a : Nat} (ha : Upper a) (hn : a / 4096 * 4096 + 4096 * n ≤ 2 ^ 64) (hq : UpperPath q) :
    Within (pageOf a) (pageOf a + n) q ↔ ∃ vaddr, InPages a n vaddr ∧ q <+: pagePath vaddr := by
  constructor
  · rintro ⟨x, hlo, hhi, hway⟩
    have hpage := ha.pageOf_add
    obtain ⟨vaddr, hvaddr⟩ : ∃ vaddr, vaddr = (x + (2 ^ 52 - 2 ^ 36)) * 4096 := ⟨_, rfl⟩
    have hin : InPages a n vaddr := by
      unfold InPages
      omega
    have hupper := hin.upper ha hn
    have hx : pageOf vaddr = x := by
      have hpage' := hupper.pageOf_add
      omega
    have hpath := onWay_pagePath vaddr
    rw [hx] at hpath
    exact ⟨vaddr, hin, hway.initial hpath hq.1 hq.2.1 hupper.upperPath⟩
  · rintro ⟨vaddr, hin, rest, hrest⟩
    have hupper := hin.upper ha hn
    obtain ⟨hlo, hhi⟩ := (inPages_iff ha hupper).mp hin
    have hpath : UpperPath (q ++ rest) := hrest ▸ hupper.upperPath
    exact ⟨_, hlo, hhi, (hrest ▸ onWay_pagePath vaddr : OnWay (pageOf vaddr) (q ++ rest)).left hpath⟩

/-- The call for the root. -/
theorem PageTree.setupPageMaps_sets {a : Nat} (h : PageTree m r) (ha : Upper a)
    (hn : a / 4096 * 4096 + 4096 * n ≤ 2 ^ 64) (w : Bool) :
    Sets r (pageOf a) (pageOf a + n) w m (m.setupPageMaps r a n w).2 ∧
      ((m.setupPageMaps r a n w).1 = .kSuccess →
        OpenBelow (m.setupPageMaps r a n w).2 r w [] (pageOf a) (pageOf a + n)) := by
  have hpage := ha.pageOf_add
  have hupper := Position.root ha.pageOf_le
  obtain ⟨hsets, hok⟩ := setupPageMap_maps 4 (by decide) m [] r a n h rfl hupper le_rfl (.inr le_rfl)
  refine ⟨hsets, fun hsuccess => ?_⟩
  have hopen := (hok hsuccess).2
  -- all pages of the upper half are below the root
  rwa [Nat.min_eq_left] at hopen
  show pageOf a + n ≤ (0 + 1) * 512 ^ 4
  omega

/-- Where the entries on the way are open, the rights are those of the page. -/
theorem PageTree.walk_open (h : PageTree m r) (hv : Upper vaddr)
    (hopen : ∀ q i, q ++ [i] <+: tablePath vaddr → EntryOpen w (q ++ [i]) (m.entryAt r q i)) :
    m.walk r vaddr = if (m.pageEntry r vaddr).present then some (m.pageEntry r vaddr) else none := by
  have h4 := hopen [] (part vaddr 4) ⟨_, rfl⟩
  have h3 := hopen [part vaddr 4] (part vaddr 3) ⟨_, rfl⟩
  have h2 := hopen [part vaddr 4, part vaddr 3] (part vaddr 2) ⟨_, rfl⟩
  rw [m.walk_eq r vaddr (h.plain_above hv), h4.user, h3.user, h2.user, h4.writable, h3.writable, h2.writable]
  rfl

/-- A page that was there is in the same frame. -/
theorem PageTree.walk_kept (h : PageTree m r) (hsets : Sets r lo hi w m m') (hv : Upper vaddr)
    (hwalk : m.walk r vaddr = some e) : ∃ e', m'.walk r vaddr = some e' ∧ e'.addr = e.addr := by
  have hfollow := h.walk_addr hv
  rw [hwalk] at hfollow
  have hkept := hsets.kept (pagePath vaddr) e.addr hv.upperPath le_rfl hfollow.symm
  rw [← (h.sets hsets).walk_addr hv] at hkept
  exact Option.map_eq_some_iff.mp hkept

section

variable {a : Nat} {err : Error} (h : PageTree m r) (ha : Upper a) (hn : a / 4096 * 4096 + 4096 * n ≤ 2 ^ 64)
  (hrun : m.setupPageMaps r a n w = (err, m'))
include h ha hn hrun

theorem PageTree.setupPageMaps_tree : Sets r (pageOf a) (pageOf a + n) w m m' ∧ PageTree m' r := by
  have hsets := (h.setupPageMaps_sets ha hn w).1
  rw [hrun] at hsets
  exact ⟨hsets, h.sets hsets⟩

/-- The entries on the way to the pages that are asked for are open. -/
theorem PageTree.setupPageMaps_path {q : List Nat} {i : Nat} (hsuccess : err = .kSuccess)
    (hin : InPages a n vaddr) (hq : q ++ [i] <+: pagePath vaddr) : EntryOpen w (q ++ [i]) (m'.entryAt r q i) := by
  have hopen := (h.setupPageMaps_sets ha hn w).2
  rw [hrun] at hopen
  have hvalid : UpperPath (q ++ [i]) := UpperPath.of_initial (hin.upper ha hn).upperPath hq
  exact hopen hsuccess q i hvalid (List.nil_prefix ..) ((within_iff ha hn hvalid).mpr ⟨vaddr, hin, hq⟩)

/-- The pages that are asked for are there, with the flag that is asked for. -/
theorem PageTree.setupPageMaps_inside (hsuccess : err = .kSuccess) (hin : InPages a n vaddr) :
    ∃ e, m'.walk r vaddr = some e ∧ e.user = true ∧ e.writable = w ∧ (m'.pageEntry r vaddr).writable = w := by
  have hpage : EntryOpen w (pagePath vaddr) (m'.pageEntry r vaddr) :=
    h.setupPageMaps_path ha hn hrun hsuccess hin (List.prefix_refl _)
  have hwalk := (h.setupPageMaps_tree ha hn hrun).2.walk_open (hin.upper ha hn) fun q i hq =>
    h.setupPageMaps_path ha hn hrun hsuccess hin (hq.trans (List.prefix_append ..))
  rw [if_pos hpage.present] at hwalk
  exact ⟨_, hwalk, hpage.user, hpage.writable, hpage.writable⟩

/-- Entries on the way to no page that is asked for stay as they are. -/
theorem PageTree.setupPageMaps_entry {q : List Nat} {i : Nat} (hq : UpperPath (q ++ [i]))
    (hout : ∀ vaddr, InPages a n vaddr → ¬ q ++ [i] <+: pagePath vaddr) : m'.entryAt r q i = m.entryAt r q i := by
  rcases (h.setupPageMaps_tree ha hn hrun).1.entries q i hq with heq | ⟨hwithin, -⟩
  · exact heq
  · obtain ⟨vaddr, hin, hpre⟩ := (within_iff ha hn hq).mp hwithin
    exact absurd hpre (hout vaddr hin)

theorem PageTree.setupPageMaps_page (hv : Upper vaddr) (hout : ¬ InPages a n vaddr) :
    m'.pageEntry r vaddr = m.pageEntry r vaddr := by
  refine h.setupPageMaps_entry ha hn hrun hv.upperPath fun v hin hpre => hout ?_
  -- two addresses with the same path are in the same page
  have hpath : pagePath vaddr = pagePath v := hpre.eq_of_length rfl
  have hnumber : pageNumber (pagePath vaddr) = pageOf v := hpath ▸ pageNumber_tablePath v
  have hnumber' : pageNumber (pagePath vaddr) = pageOf vaddr := pageNumber_tablePath vaddr
  rw [inPages_iff ha hv, ← hnumber', hnumber]
  exact (inPages_iff ha (hin.upper ha hn)).mp hin

theorem PageTree.setupPageMaps_addr (hv : Upper vaddr) (hout : ¬ InPages a n vaddr) :
    (m'.walk r vaddr).map (·.addr) = (m.walk r vaddr).map (·.addr) := by
  rw [(h.setupPageMaps_tree ha hn hrun).2.walk_addr hv, h.walk_addr hv, Machine.follow_pagePath,
    Machine.follow_pagePath, h.setupPageMaps_page ha hn hrun hv hout]

/-- The rights stay the same, too, behind entries that are open. -/
theorem PageTree.setupPageMaps_outside (hv : Upper vaddr) (hout : ¬ InPages a n vaddr)
    (hopen : ∀ q i, q ++ [i] <+: tablePath vaddr → (m.entryAt r q i).present = true →
      (m.entryAt r q i).user = true ∧ (m.entryAt r q i).writable = true) :
    m'.walk r vaddr = m.walk r vaddr := by
  obtain ⟨hsets, h'⟩ := h.setupPageMaps_tree ha hn hrun
  have hpage := h.setupPageMaps_page ha hn hrun hv hout
  by_cases hpresent : (m.pageEntry r vaddr).present = true
  · have hopened : ∀ q i, q ++ [i] <+: tablePath vaddr → EntryOpen w (q ++ [i]) (m.entryAt r q i) := by
      intro q i hq
      have hthere := Machine.present_of_initial hpresent hq
      obtain ⟨huser, hwritable⟩ := hopen q i hq hthere
      have hle : (q ++ [i]).length ≤ 3 := hq.length_le
      refine ⟨hthere, huser, ?_⟩
      rw [hwritable, if_neg (by omega)]
    have hopened' : ∀ q i, q ++ [i] <+: tablePath vaddr → EntryOpen w (q ++ [i]) (m'.entryAt r q i) := by
      intro q i hq
      have hvalid : UpperPath (q ++ [i]) := UpperPath.of_initial hv.upperPath (hq.trans (List.prefix_append ..))
      exact (hsets.entries q i hvalid).opened (hopened q i hq)
    rw [h.walk_open hv hopened, h'.walk_open hv hopened', hpage]
  · rw [m.walk_eq r vaddr (h.plain_above hv), m'.walk_eq r vaddr (h'.plain_above hv), hpage,
      if_neg hpresent, if_neg hpresent]

/-- The pages that are there afterwards. -/
theorem PageTree.setupPageMaps_walk (hsuccess : err = .kSuccess) (hv : Upper vaddr) :
    m'.walk r vaddr ≠ none ↔ m.walk r vaddr ≠ none ∨ InPages a n vaddr := by
  by_cases hin : InPages a n vaddr
  · obtain ⟨e, hwalk, -⟩ := h.setupPageMaps_inside ha hn hrun hsuccess hin
    rw [hwalk]
    exact iff_of_true (Option.some_ne_none e) (.inr hin)
  · have haddr := h.setupPageMaps_addr ha hn hrun hv hin
    have hnone : m'.walk r vaddr = none ↔ m.walk r vaddr = none := by
      rw [← Option.map_eq_none_iff (f := fun e : PageMapEntry => e.addr), haddr, Option.map_eq_none_iff]
    rw [or_iff_left hin, Ne, hnone]

end

/-- `SetupPageMaps` maps the pages it is asked for, in frames that were free where there was no page; all
other addresses lead where they led, and no page is lost if the frames run out. -/
theorem PageTree.setupPageMaps_exact {a : Nat} {err : Error} (h : PageTree m r) (ha : Upper a)
    (hn : a / 4096 * 4096 + 4096 * n ≤ 2 ^ 64) (hrun : m.setupPageMaps r a n w = (err, m')) :
    (err = .kSuccess → ∀ vaddr, InPages a n vaddr → ∃ e, m'.walk r vaddr = some e ∧
      e.user = true ∧ e.writable = w ∧ (m'.pageEntry r vaddr).writable = w) ∧
    (∀ vaddr e, Upper vaddr → m.walk r vaddr = some e → ∃ e', m'.walk r vaddr = some e' ∧ e'.addr = e.addr) ∧
    (∀ p f, UpperPath p → m.follow r p = none → m'.follow r p = some f →
      m.mm.getBit f = false ∧ m'.bytes f = fun _ => 0) ∧
    (∀ p q f, UpperPath p → UpperPath q → m.follow r p = none → m.follow r q = none →
      m'.follow r p = some f → m'.follow r q = some f → p = q) ∧
    (∀ p i, UpperPath (p ++ [i]) → (∀ vaddr, InPages a n vaddr → ¬ p ++ [i] <+: pagePath vaddr) →
      m'.entryAt r p i = m.entryAt r p i) ∧
    ∀ vaddr, Upper vaddr → ¬ InPages a n vaddr →
      (m'.walk r vaddr).map (·.addr) = (m.walk r vaddr).map (·.addr) ∧
      m'.pageEntry r vaddr = m.pageEntry r vaddr ∧
      ((∀ q i, q ++ [i] <+: tablePath vaddr → (m.entryAt r q i).present = true →
        (m.entryAt r q i).user = true ∧ (m.entryAt r q i).writable = true) →
        m'.walk r vaddr = m.walk r vaddr) := by
  obtain ⟨hsets, -⟩ := h.setupPageMaps_tree ha hn hrun
  refine ⟨fun hsuccess vaddr => h.setupPageMaps_inside ha hn hrun hsuccess, fun vaddr e => h.walk_kept hsets,
    fun p f hp hnone hsome => ?_, fun p q f hp hq => hsets.freshApart p q f hp hq hp.1 hq.1,
    fun p i => h.setupPageMaps_entry ha hn hrun, fun vaddr hv hout => ?_⟩
  · obtain ⟨hfree, -, hbytes⟩ := hsets.fresh p f hp hp.1 hnone hsome
    exact ⟨hfree, hbytes⟩
  · exact ⟨h.setupPageMaps_addr ha hn hrun hv hout, h.setupPageMaps_page ha hn hrun hv hout,
      h.setupPageMaps_outside ha hn hrun hv hout⟩

/-- A machine with an empty root in frame 1 and some free frames. -/
def emptyRoot : Machine where
  mm := (BitmapMemoryManager.init.markAllocated 0 2).setMemoryRange 2 64
  tables := fun _ _ => {}
  bytes := fun _ _ => 0
  doubleFreed := []

theorem emptyRoot_tree : PageTree emptyRoot 1 := .of_empty (by decide) (fun _ _ _ => rfl) (by decide)

/-- Two pages at the end of a page table and at the beginning of the next one. -/
theorem setupPageMaps_exact_two_tables :
    (emptyRoot.setupPageMaps 1 (kUpperHalf + 511 * 4096) 2 false).1 = .kSuccess ∧
      ∃ e, (emptyRoot.setupPageMaps 1 (kUpperHalf + 511 * 4096) 2 false).2.walk 1 (kUpperHalf + 512 * 4096) = some e ∧
        e.user = true ∧ e.writable = false := by
  have hsuccess : (emptyRoot.setupPageMaps 1 (kUpperHalf + 511 * 4096) 2 false).1 = .kSuccess := by
    decide +kernel
  have hexact := emptyRoot_tree.setupPageMaps_exact (a := kUpperHalf + 511 * 4096) (n := 2) (w := false)
    ⟨by decide, by decide⟩ (by decide) rfl
  obtain ⟨e, hwalk, huser, hwritable, -⟩ := hexact.1 hsuccess (kUpperHalf + 512 * 4096) ⟨by decide, by decide⟩
  exact ⟨hsuccess, e, hwalk, huser, hwritable⟩

end MikanSaos
