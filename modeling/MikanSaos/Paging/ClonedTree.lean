import MikanSaos.Paging.CopyPages
import MikanSaos.Paging.MappedRange

/-!
# ClonedTree — `CopyPageMaps` clones an address space

The copy of an inner entry refers to a page map of its own, the copy of a page is read-only and refers to the
same frame.  `m₀` is the machine before the copy: the page maps of the source are read there.
-/

open Reasoning

namespace MikanSaos

open LinearAddress4Level Machine

variable {m₀ m m' : Machine} {src dest t s i level start vaddr : Nat} {p q : List Nat}
  {P Q : List Nat → Prop} {e e' e'' : PageMapEntry}
  {step : List Nat → PageMapEntry → PageMapEntry → Prop}

/-- The source uses allocated frames, `dest` is none of its page maps, and it has no large pages. -/
structure Source (m : Machine) (src dest : Nat) : Prop where
  allocated : ∀ p f, UpperPath p → m.follow src p = some f → m.mm.getBit f = true
  apart : ∀ p, UpperPath p → p.length ≤ 3 → m.follow src p ≠ some dest
  plain : ∀ p i, UpperPath (p ++ [i]) → p.length = 2 → (m.entryAt src p i).hugePage = false

/-- An entry that is there and its copy, at the end of the path `q`. -/
def CopyOf (q : List Nat) (e e' : PageMapEntry) : Prop :=
  e.present = true ∧ if q.length = 4 then e' = { e with writable := false } else ∃ t, e' = { e with addr := t }

/-- Entries with paths of the kind `P` may become copies. -/
def Copies (m₀ : Machine) (src : Nat) (P : List Nat → Prop) (q : List Nat) (e e' : PageMapEntry) : Prop :=
  e' = e ∨ P q ∧ ∃ p i, q = p ++ [i] ∧ CopyOf q (m₀.entryAt src p i) e'

theorem Copies.refl (m₀ : Machine) (src : Nat) (P : List Nat → Prop) (q : List Nat) (e : PageMapEntry) :
    Copies m₀ src P q e e := .inl rfl

theorem Copies.trans (h : Copies m₀ src P q e e') (h' : Copies m₀ src P q e' e'') : Copies m₀ src P q e e'' := by
  rcases h' with rfl | h'
  · exact h
  · exact .inr h'

theorem Copies.mono (hpq : ∀ q, P q → Q q) (h : Copies m₀ src P q e e') : Copies m₀ src Q q e e' :=
  h.imp_right fun hcopy => ⟨hpq q hcopy.1, hcopy.2⟩

/-- A copy stays a copy. -/
theorem Copies.copyOf (h : Copies m₀ src P (p ++ [i]) e e') (hcopy : CopyOf (p ++ [i]) (m₀.entryAt src p i) e) :
    CopyOf (p ++ [i]) (m₀.entryAt src p i) e' := by
  rcases h with rfl | ⟨-, p', i', heq, hcopy'⟩
  · exact hcopy
  · obtain ⟨rfl, hi⟩ := List.append_inj' heq rfl
    obtain rfl := List.singleton_inj.mp hi
    exact hcopy'

abbrev CopiesTo (m₀ : Machine) (src dest : Nat) (P : List Nat → Prop) : Machine → Machine → Prop :=
  AddsTo dest 3 (Copies m₀ src P)

theorem CopiesTo.refl (m₀ : Machine) (src dest : Nat) (P : List Nat → Prop) (m : Machine) :
    CopiesTo m₀ src dest P m m := AddsTo.refl (Copies.refl m₀ src P) dest 3 m

theorem CopiesTo.trans {m'' : Machine} (h : CopiesTo m₀ src dest P m m') (h' : CopiesTo m₀ src dest P m' m'') :
    CopiesTo m₀ src dest P m m'' :=
  AddsTo.trans le_rfl (fun _ _ _ _ => Copies.trans) h h'

theorem CopiesTo.mono (hpq : ∀ q, P q → Q q) (h : CopiesTo m₀ src dest P m m') : CopiesTo m₀ src dest Q m m' :=
  AddsTo.mono (fun _ _ _ => Copies.mono hpq) h

theorem PageTree.copiesTo (h : PageTree m dest) (hsource : Source m₀ src dest)
    (hcopies : CopiesTo m₀ src dest P m m') : PageTree m' dest := by
  refine h.addsTo le_rfl hcopies ?_
  rintro q e e' hvalid hq (rfl | ⟨-, p, i, rfl, -, hcopy⟩) hplain
  · exact hplain
  · rw [if_neg (by omega)] at hcopy
    obtain ⟨t, rfl⟩ := hcopy
    rw [List.length_append, List.length_singleton] at hq
    exact hsource.plain p i hvalid (by omega)

/-- The page maps of the source are as they were, and none of them is below `dest`. -/
def Untouched (m₀ : Machine) (src dest : Nat) (m : Machine) : Prop :=
  ∀ p s, UpperPath p → p.length ≤ 3 → m₀.follow src p = some s →
    m.mm.getBit s = true ∧ m.tables s = m₀.tables s ∧ ∀ q, UpperPath q → q.length ≤ 3 → m.follow dest q ≠ some s

theorem Untouched.addsTo (h : Untouched m₀ src dest m) (hx : AddsTo dest 3 step m m') :
    Untouched m₀ src dest m' := by
  intro p s hp hle hs
  obtain ⟨hmark, htables, hout⟩ := h p s hp hle hs
  refine ⟨hx.marks s hmark, ?_, ?_⟩
  · rw [← htables]
    funext i
    exact hx.others s i hmark fun q hq => hout q hq.left hq.length_lt
  · intro q hq hqle hsome
    cases hold : m.follow dest q with
    | none =>
      -- new page maps are in frames that were free
      rw [hx.free_of_new hq hqle hold hsome] at hmark
      cases hmark
    | some s' =>
      have hkept := hx.kept q s' hq hqle hold
      rw [hsome] at hkept
      exact hout q hq hqle (hold.trans hkept.symm)

/-- Where a copy stands: the entries of the page map `t` at the path `p` are still to be made, from `start` on,
after those of `s`. -/
structure CloneAt (m₀ : Machine) (src dest level start : Nat) (m : Machine) (p : List Nat) (t s : Nat) : Prop where
  tree : PageTree m dest
  kept : Untouched m₀ src dest m
  place : m.follow dest p = some t
  source : m₀.follow src p = some s
  length : p.length + level = 4
  path : ∀ i, start ≤ i → i < 512 → UpperPath (p ++ [i])
  absent : ∀ i, start ≤ i → i < 512 → (m.tables t i).present = false

theorem CloneAt.next (h : CloneAt m₀ src dest level start m p t s) (hsource : Source m₀ src dest) (hi : start ≤ i)
    (hp : UpperPath p) (hle : p.length ≤ 3) (hcopies : CopiesTo m₀ src dest P m m')
    (habsent : ∀ j, i ≤ j → j < 512 → (m'.tables t j).present = false) :
    CloneAt m₀ src dest level i m' p t s where
  tree := h.tree.copiesTo hsource hcopies
  kept := h.kept.addsTo hcopies
  place := hcopies.kept p t hp hle h.place
  source := h.source
  length := h.length
  path j hj := h.path j (hi.trans hj)
  absent := habsent

/-- All entries of the source with paths of the kind `P` have their copies. -/
def Cloned (m₀ : Machine) (src dest : Nat) (P : List Nat → Prop) (m : Machine) : Prop :=
  ∀ p i, UpperPath (p ++ [i]) → P (p ++ [i]) → (m₀.entryAt src p i).present = true →
    CopyOf (p ++ [i]) (m₀.entryAt src p i) (m.entryAt dest p i)

theorem Cloned.copiesTo (h : Cloned m₀ src dest Q m) (hcopies : CopiesTo m₀ src dest P m m') :
    Cloned m₀ src dest Q m' :=
  fun p i hp hQ hpresent => (hcopies.entries p i hp).copyOf (h p i hp hQ hpresent)

/-! ## One entry, one page map, all levels -/

/-- The call copies what is below one page map. -/
def Clones (m₀ : Machine) (src dest level start : Nat) (run : Machine → (dest src : Nat) → Error × Machine) :
    Prop :=
  ∀ m p t s, CloneAt m₀ src dest level start m p t s → UpperPath p → (∀ i, UpperPath (p ++ [i]) → start ≤ i) →
    CopiesTo m₀ src dest (p <+: ·) m (run m t s).2 ∧
      ((run m t s).1 = .kSuccess →
        Cloned m₀ src dest (fun q => p <+: q ∧ p.length < q.length) (run m t s).2)

/-- The entry of a page. -/
theorem CloneAt.page (h : CloneAt m₀ src dest 1 i m p t s) (hi : i < 512)
    (hcopy : CopyOf (p ++ [i]) (m₀.entryAt src p i) e) :
    CopiesTo m₀ src dest (p ++ [i] <+: ·) m (m.setEntry t i e) ∧
      Cloned m₀ src dest (p ++ [i] <+: ·) (m.setEntry t i e) := by
  have hlength := h.length
  have hvalid := h.path i le_rfl hi
  have hfollow : ∀ q, UpperPath q → q.length ≤ 3 → (m.setEntry t i e).follow dest q = m.follow dest q :=
    fun q hq hqle => h.tree.follow_setLeaf h.place hvalid (by omega) e hq hqle
  have hstep : Copies m₀ src (p ++ [i] <+: ·) (p ++ [i]) (m.tables t i) e :=
    .inr ⟨List.prefix_refl _, p, i, rfl, hcopy⟩
  refine ⟨h.tree.setEntry_addsTo (Copies.refl m₀ src _) h.place hvalid hstep hfollow hfollow, ?_⟩
  intro q j hq hpq hpresent
  -- nothing is below an entry of the last level
  have hsame : p ++ [i] = q ++ [j] := by
    apply List.IsPrefix.eq_of_length_le hpq
    have hle := hq.1
    rw [List.length_append, List.length_singleton] at hle ⊢
    rw [List.length_append, List.length_singleton]
    omega
  obtain ⟨rfl, hj⟩ := List.append_inj' hsame rfl
  obtain rfl := List.singleton_inj.mp hj
  rw [h.tree.entryAt_setEntry h.place hvalid hfollow hvalid, if_pos ⟨rfl, rfl⟩]
  exact hcopy

/-- The page map of an inner entry, before it is filled. -/
theorem CloneAt.pageMap {g : Nat} (h : CloneAt m₀ src dest (level + 1) i m p t s) (hsource : Source m₀ src dest)
    (hlevel : 0 < level) (hi : i < 512) (hpresent : (m₀.entryAt src p i).present = true)
    (hg : m.mm.getBit g = false) (haddr : e.addr = g) (hcopy : CopyOf (p ++ [i]) (m₀.entryAt src p i) e) :
    CopiesTo m₀ src dest (p ++ [i] <+: ·) m ((m.withPageMap g).setEntry t i e) ∧
      CopyOf (p ++ [i]) (m₀.entryAt src p i) (((m.withPageMap g).setEntry t i e).entryAt dest p i) ∧
      CloneAt m₀ src dest level 0 ((m.withPageMap g).setEntry t i e) (p ++ [i]) g (m₀.entryAt src p i).addr := by
  have hlength := h.length
  have hvalid := h.path i le_rfl hi
  have habsent := h.absent i le_rfl hi
  have hinner : (p ++ [i]).length < 4 := by
    rw [List.length_append, List.length_singleton]
    omega
  have hepresent : e.present = true := by
    obtain ⟨-, hcopy⟩ := hcopy
    rw [if_neg (by omega)] at hcopy
    obtain ⟨t, rfl⟩ := hcopy
    exact hpresent
  have hstep : Copies m₀ src (p ++ [i] <+: ·) (p ++ [i]) (m.tables t i) e :=
    .inr ⟨List.prefix_refl _, p, i, rfl, hcopy⟩
  have hlink : CopiesTo m₀ src dest (p ++ [i] <+: ·) m ((m.withPageMap g).setEntry t i e) :=
    h.tree.link_addsTo h.place hvalid habsent hg hepresent haddr (Copies.refl m₀ src _) hstep 3
  have hfollow := fun {q} (hq : UpperPath q) =>
    h.tree.follow_link h.place hvalid habsent hg hepresent haddr (q := q) hq
  refine ⟨hlink, ?_, ?_⟩
  · rw [h.tree.entryAt_link h.place hvalid habsent hg hepresent haddr hvalid, if_pos ⟨rfl, rfl⟩]
    exact hcopy
  · exact {
      tree := h.tree.copiesTo hsource hlink
      kept := h.kept.addsTo hlink
      place := by rw [hfollow hvalid, if_pos rfl]
      source := by rw [Machine.follow_snoc, PageMapEntry.target, if_pos hpresent]
      length := by
        rw [List.length_append, List.length_singleton]
        omega
      path := fun j _ hj => by
        refine ⟨?_, ?_, ?_⟩
        · rw [List.length_append, List.length_singleton]
          omega
        · intro k hk
          rcases List.mem_append.mp hk with hk | hk
          · exact hvalid.2.1 k hk
          · rw [List.mem_singleton.mp hk]
            exact hj
        · rw [List.head?_append_of_ne_nil _ (by simp)]
          exact hvalid.2.2
      absent := fun j _ _ => by
        -- the new page map is empty
        have htg := h.tree.ne_free h.place hvalid hg
        rw [Machine.setEntry_of_ne fun hand => htg hand.1.symm, Machine.tables_withPageMap] }

/-- One round of the loop. -/
theorem CloneAt.entry {below : Machine → (dest src : Nat) → Error × Machine}
    (hbelow : 0 < level → Clones m₀ src dest level 0 below) (h : CloneAt m₀ src dest (level + 1) i m p t s)
    (hsource : Source m₀ src dest) (hi : i < 512) :
    CopiesTo m₀ src dest (p ++ [i] <+: ·) m (copyEntry below (level + 1) t s m i).2 ∧
      ((copyEntry below (level + 1) t s m i).1 = .kSuccess →
        Cloned m₀ src dest (p ++ [i] <+: ·) (copyEntry below (level + 1) t s m i).2) := by
  have hlength := h.length
  have hvalid := h.path i le_rfl hi
  obtain ⟨hmark, htables, hout⟩ := h.kept p s hvalid.left (by omega) h.source
  have hentry : m₀.entryAt src p i = m.tables s i := by
    rw [Machine.entryAt_of_follow h.source, htables]
  unfold copyEntry
  dsimp only
  by_cases hpresent : (m.tables s i).present = true
  swap
  · rw [if_pos hpresent]
    refine ⟨.refl .., fun _ q j hq hpq hthere => ?_⟩
    -- nothing of the source is behind the entry
    rcases List.prefix_concat_iff.mp hpq with hsame | hbelow
    · obtain ⟨rfl, hj⟩ := List.append_inj' hsame rfl
      obtain rfl := List.singleton_inj.mp hj
      exact absurd (hentry ▸ hthere) hpresent
    · exact absurd (hentry ▸ Machine.present_of_initial hthere hbelow) hpresent
  rw [if_neg (not_not.mpr hpresent)]
  have hpresent₀ : (m₀.entryAt src p i).present = true := by rwa [hentry]
  by_cases hlevel : level = 0
  · -- the entry of a page is copied and made read-only
    subst hlevel
    rw [if_pos rfl]
    have hcopy : CopyOf (p ++ [i]) (m₀.entryAt src p i) { m.tables s i with writable := false } := by
      refine ⟨hpresent₀, ?_⟩
      rw [List.length_append, List.length_singleton, if_pos (by omega), hentry]
    obtain ⟨hcopies, hcloned⟩ := h.page hi hcopy
    exact ⟨hcopies, fun _ => hcloned⟩
  rw [if_neg (by omega)]
  rcases m.newPageMap_cases with ⟨g, heq, hg, hlt⟩ | ⟨heq, -⟩
  swap
  · -- no frame is left
    rw [heq]
    exact ⟨.refl .., nofun⟩
  rw [heq]
  dsimp only
  rw [if_neg (by decide)]
  -- the new page map is not one of the source, so that the entry is still there to be copied
  have hst : s ≠ t := fun heq' => hout p hvalid.left (by omega) (heq' ▸ h.place)
  have htable : (m.withPageMap g).tables s = m.tables s := by
    apply Function.update_of_ne
    rintro rfl
    rw [hmark] at hg
    cases hg
  rw [htable, Machine.setEntry_of_ne fun hand => hst hand.1, htable, ← hentry]
  have haddr : g % 2 ^ 40 = g := Nat.mod_eq_of_lt (Nat.lt_of_lt_of_le hlt h.tree.range)
  have hcopy : CopyOf (p ++ [i]) (m₀.entryAt src p i) ((m₀.entryAt src p i).setPointer g) := by
    refine ⟨hpresent₀, ?_⟩
    rw [List.length_append, List.length_singleton, if_neg (by omega)]
    exact ⟨_, rfl⟩
  obtain ⟨hcopies, hlinked, hat⟩ := h.pageMap hsource (Nat.pos_of_ne_zero hlevel) hi hpresent₀ hg haddr hcopy
  obtain ⟨hcopies', hok⟩ := hbelow (Nat.pos_of_ne_zero hlevel) _ _ _ _ hat hvalid fun _ _ => Nat.zero_le _
  refine ⟨hcopies.trans hcopies', fun hsuccess q j hq hpq hthere => ?_⟩
  rcases List.prefix_concat_iff.mp hpq with hsame | hbelow'
  · -- the entry itself
    obtain ⟨rfl, hj⟩ := List.append_inj' hsame rfl
    obtain rfl := List.singleton_inj.mp hj
    exact (hcopies'.entries _ _ hq).copyOf hlinked
  · -- what is below it, by the call for the new page map
    refine hok hsuccess q j hq ⟨hpq, ?_⟩ hthere
    have hle := hbelow'.length_le
    have hlonger : (q ++ [j]).length = q.length + 1 := List.length_append ..
    omega

theorem copyPageMaps_clones (hsource : Source m₀ src dest) (level : Nat) :
    ∀ start, start ≤ 512 → 0 < level → Clones m₀ src dest level start (copyPageMaps level start) := by
  induction level with
  | zero => exact fun _ _ h => absurd h (Nat.lt_irrefl 0)
  | succ level ih =>
    intro start hstart _ m p t s h hp hfirst
    have hbelow (hlevel : 0 < level) := ih 0 (Nat.zero_le 512) hlevel
    have hlength := h.length
    let post (m' : Machine) : Prop := CopiesTo m₀ src dest (p <+: ·) m m'
    -- after each round the entries so far are copied, and the rest of the page map is still empty
    let inv (i : Nat) (m' : Machine) : Prop := post m' ∧ start ≤ i ∧
      (∀ j, i ≤ j → j < 512 → (m'.tables t j).present = false) ∧
      ∀ j, start ≤ j → j < i → Cloned m₀ src dest (p ++ [j] <+: ·) m'
    have hpost (i : Nat) (m' : Machine) (hinv : inv i m') : post m' := hinv.1
    have hround : ∀ i m', i < 512 → inv i m' →
        post (copyEntry (copyPageMaps level 0) (level + 1) t s m' i).2 ∧
          ((copyEntry (copyPageMaps level 0) (level + 1) t s m' i).1 = .kSuccess →
            inv (i + 1) (copyEntry (copyPageMaps level 0) (level + 1) t s m' i).2) := by
      intro i m' hi ⟨hcopies, hle, habsent, hcloned⟩
      have hat := h.next hsource hle hp (by omega) hcopies habsent
      obtain ⟨hcopies', hok⟩ := hat.entry hbelow hsource hi
      have hall : post _ := hcopies.trans (hcopies'.mono fun q hq => (List.prefix_append ..).trans hq)
      refine ⟨hall, fun hsuccess => ⟨hall, by omega, ?_, ?_⟩⟩
      · intro j hij hj
        have hvalid := h.path j (by omega) hj
        have hplace := hat.place
        have hplace' := hcopies'.kept p t hp (by omega) hplace
        rw [← Machine.entryAt_of_follow hplace']
        -- the round does not touch this entry
        rcases hcopies'.entries p j hvalid with hsame | ⟨hpre, -⟩
        · rw [hsame, Machine.entryAt_of_follow hplace]
          exact habsent j (by omega) hj
        · have heq := hpre.eq_of_length (by rw [List.length_append, List.length_append]; rfl)
          obtain ⟨-, hji⟩ := List.append_inj' heq rfl
          have hji' := List.singleton_inj.mp hji
          omega
      · intro j hstart' hj
        by_cases hji : j = i
        · rw [hji]
          exact hok hsuccess
        · exact (hcloned j hstart' (by omega)).copiesTo hcopies'
    have hinit : inv (512 - (512 - start)) m := by
      rw [show 512 - (512 - start) = start by omega]
      exact ⟨.refl .., le_rfl, h.absent, fun j hstart' hj => by omega⟩
    obtain ⟨hcopies, hok⟩ := forEntries_inv hpost hround (512 - start) (Nat.sub_le ..) m hinit
    refine ⟨hcopies, fun hsuccess q i hq ⟨⟨rest, hrest⟩, hlt⟩ hthere => ?_⟩
    obtain ⟨-, -, -, hcloned⟩ := hok hsuccess
    cases rest with
    | nil =>
      rw [List.append_nil] at hrest
      exact absurd (hrest ▸ hlt) (Nat.lt_irrefl _)
    | cons j rest =>
      -- the round for the first index behind `p` has copied it
      have hpre : p ++ [j] <+: q ++ [i] := ⟨rest, by rw [← hrest, List.append_assoc]; rfl⟩
      have hvalid := UpperPath.of_initial hq hpre
      have hj := hvalid.2.1 j (by simp)
      exact hcloned j (hfirst j hvalid) hj q i hq hpre hthere

/-! ## The upper half of a root -/

theorem Untouched.of_empty (hsource : Source m src dest) (hempty : ∀ i, 256 ≤ i → i < 512 → m.tables dest i = {}) :
    Untouched m src dest m := by
  refine fun p s hp hle hs => ⟨hsource.allocated p s hp hs, rfl, fun q hq _ hsome => ?_⟩
  by_cases hne : q = []
  · subst hne
    exact hsource.apart p hp hle (hs.trans hsome.symm)
  · rw [Machine.follow_empty hempty hq hne] at hsome
    cases hsome

theorem CloneAt.root (hsource : Source m src dest) (hdest : m.mm.getBit dest = true)
    (hempty : ∀ i, 256 ≤ i → i < 512 → m.tables dest i = {}) (hrange : m.mm.rangeEnd ≤ 2 ^ 40) :
    CloneAt m src dest 4 256 m [] dest src where
  tree := .of_empty hdest hempty hrange
  kept := .of_empty hsource hempty
  place := rfl
  source := rfl
  length := rfl
  path i hle hi := by
    refine ⟨(by decide : 1 ≤ 4), fun j hj => ?_, fun j hj => ?_⟩
    · rw [List.mem_singleton.mp hj]
      exact hi
    · cases hj
      exact hle
  absent i hle hi := by rw [hempty i hle hi]

/-- The walk through a copy. -/
theorem walk_of_cloned (hsource : Source m src dest) (htree : PageTree m' dest) (hv : Upper vaddr)
    (hcloned : ∀ q i, q ++ [i] <+: pagePath vaddr → (m.entryAt src q i).present = true →
      CopyOf (q ++ [i]) (m.entryAt src q i) (m'.entryAt dest q i))
    (habsent : (m.pageEntry src vaddr).present = false → (m'.pageEntry dest vaddr).present = false) :
    m'.walk dest vaddr = (m.walk src vaddr).map fun e => { e with writable := false } := by
  have hplain := hsource.plain [part vaddr 4, part vaddr 3] (part vaddr 2) hv.upperPath.left rfl
  rw [m'.walk_eq dest vaddr (htree.plain_above hv), m.walk_eq src vaddr hplain]
  cases hpresent : (m.pageEntry src vaddr).present with
  | false =>
    rw [habsent hpresent, if_neg (by decide), if_neg (by decide)]
    rfl
  | true =>
    have hinner {q : List Nat} {i : Nat} (hq : q ++ [i] <+: tablePath vaddr) :
        ∃ t, m'.entryAt dest q i = { m.entryAt src q i with addr := t } := by
      have hcopy := (hcloned q i (hq.trans (List.prefix_append ..)) (Machine.present_of_initial hpresent hq)).2
      have hle : (q ++ [i]).length ≤ 3 := hq.length_le
      rwa [if_neg (by omega)] at hcopy
    obtain ⟨t4, h4⟩ := hinner (q := []) (i := part vaddr 4) ⟨_, rfl⟩
    obtain ⟨t3, h3⟩ := hinner (q := [part vaddr 4]) (i := part vaddr 3) ⟨_, rfl⟩
    obtain ⟨t2, h2⟩ := hinner (q := [part vaddr 4, part vaddr 3]) (i := part vaddr 2) ⟨_, rfl⟩
    have h1 : m'.pageEntry dest vaddr = { m.pageEntry src vaddr with writable := false } :=
      (hcloned (tablePath vaddr) (part vaddr 1) (List.prefix_refl _) hpresent).2
    rw [h1, h2, h3, h4]
    dsimp only
    rw [hpresent, if_pos rfl, Bool.and_false]
    rfl

/-- `CopyPageMaps` to an empty upper half: all pages of the source are there, in the same frames and with the
same flags, but read-only; the page maps are new, and what was there before stays as it was. -/
theorem copyPageMaps_clone (hsource : Source m src dest) (hdest : m.mm.getBit dest = true)
    (hempty : ∀ i, 256 ≤ i → i < 512 → m.tables dest i = {}) (hrange : m.mm.rangeEnd ≤ 2 ^ 40)
    (hrun : copyPageMaps 4 256 m dest src = (.kSuccess, m')) :
    (∀ vaddr, Upper vaddr → m'.walk dest vaddr = (m.walk src vaddr).map fun e => { e with writable := false }) ∧
    (∀ vaddr, Upper vaddr → (m.pageEntry src vaddr).present = true →
      m'.pageEntry dest vaddr = { m.pageEntry src vaddr with writable := false }) ∧
    (∀ p t, UpperPath p → p ≠ [] → p.length ≤ 3 → m'.follow dest p = some t →
      m.mm.getBit t = false ∧ ∀ q, UpperPath q → m.follow src q ≠ some t) ∧
    (∀ t i, m.mm.getBit t = true → ¬ (t = dest ∧ 256 ≤ i ∧ i < 512) → m'.tables t i = m.tables t i) ∧
    ∀ f, m.mm.getBit f = true → m'.bytes f = m.bytes f := by
  have hroot := CloneAt.root hsource hdest hempty hrange
  obtain ⟨hcopies, hok⟩ := copyPageMaps_clones hsource 4 256 (by decide) (by decide) m [] dest src hroot
    ⟨Nat.zero_le 4, nofun, nofun⟩ fun i hi => hi.2.2 i rfl
  rw [hrun] at hcopies hok
  have hcloned := hok rfl
  have htree : PageTree m' dest := hroot.tree.copiesTo hsource hcopies
  have hcopied {q : List Nat} {i : Nat} (hq : UpperPath (q ++ [i])) (hthere : (m.entryAt src q i).present = true) :
      CopyOf (q ++ [i]) (m.entryAt src q i) (m'.entryAt dest q i) :=
    hcloned q i hq ⟨List.nil_prefix .., by simp⟩ hthere
  refine ⟨fun vaddr hv => ?_, fun vaddr hv hpresent => ?_, ?_, ?_, hcopies.bytes⟩
  · refine walk_of_cloned hsource htree hv (fun q i hq => hcopied (UpperPath.of_initial hv.upperPath hq)) ?_
    intro habsent
    rcases hcopies.entries _ _ hv.upperPath with hsame | ⟨-, p, i, heq, hthere, -⟩
    · rw [Machine.pageEntry, hsame, Machine.entryAt_of_none]
      exact Machine.follow_empty hempty hv.upperPath.left (by simp [tablePath])
    · -- only what is there is copied
      obtain ⟨rfl, hi⟩ := List.append_inj' heq rfl
      obtain rfl := List.singleton_inj.mp hi
      rw [Machine.pageEntry, hthere] at habsent
      cases habsent
  · exact (hcopied hv.upperPath hpresent).2
  · intro p t hp hne hle hsome
    have hfree := hcopies.free_of_new hp hle (Machine.follow_empty hempty hp hne) hsome
    refine ⟨hfree, fun q hq hq' => ?_⟩
    rw [hsource.allocated q t hq hq'] at hfree
    cases hfree
  · intro t i ht hout
    apply hcopies.others t i ht
    intro p hp hsome
    by_cases hne : p = []
    · subst hne
      exact hout ⟨(Option.some.inj hsome).symm, hp.2.2 i rfl, hp.2.1 i (by simp)⟩
    · rw [Machine.follow_empty hempty hp.left hne] at hsome
      cases hsome

/-- A machine with two empty roots and some free frames. -/
def emptyRoots : Machine :=
  { emptyRoot with mm := (BitmapMemoryManager.init.markAllocated 0 3).setMemoryRange 3 64 }

theorem emptyRoots_tree : PageTree emptyRoots 1 := .of_empty (by decide) (fun _ _ _ => rfl) (by decide)

/-- One page below the first root. -/
def onePage : Machine := (emptyRoots.setupPageMaps 1 kUpperHalf 1 false).2

theorem onePage_sets : Sets 1 (pageOf kUpperHalf) (pageOf kUpperHalf + 1) false emptyRoots onePage :=
  (emptyRoots_tree.setupPageMaps_sets (a := kUpperHalf) ⟨by decide, by decide⟩ (by decide) false).1

/-- What is below the first root is new. -/
theorem onePage_fresh (hp : UpperPath p) (hne : p ≠ []) (ht : onePage.follow 1 p = some t) :
    emptyRoots.mm.getBit t = false ∧ onePage.mm.getBit t = true := by
  have hnone : emptyRoots.follow 1 p = none := Machine.follow_empty (fun _ _ _ => rfl) hp hne
  obtain ⟨hfree, hmark, -⟩ := onePage_sets.fresh p t hp hp.1 hnone ht
  exact ⟨hfree, hmark⟩

theorem onePage_source : Source onePage 1 2 where
  allocated p f hp hf := by
    by_cases hne : p = []
    · subst hne
      cases hf
      exact onePage_sets.marks 1 (by decide)
    · exact (onePage_fresh hp hne hf).2
  apart p hp hle hsome := by
    by_cases hne : p = []
    · subst hne
      cases hsome
    · exact absurd (onePage_fresh hp hne hsome).1 (by decide)
  plain := (emptyRoots_tree.sets onePage_sets).plain

/-- The copy of a page map with one page. -/
theorem copyPageMaps_clone_one_page :
    (copyPageMaps 4 256 onePage 2 1).1 = .kSuccess ∧
      (copyPageMaps 4 256 onePage 2 1).2.walk 2 kUpperHalf =
        (onePage.walk 1 kUpperHalf).map fun e => { e with writable := false } := by
  have hsuccess : (copyPageMaps 4 256 onePage 2 1).1 = .kSuccess := by decide +kernel
  have hempty : ∀ i, 256 ≤ i → i < 512 → onePage.tables 2 i = {} := by
    intro i _ _
    refine onePage_sets.others 2 i (by decide) fun p hp hsome => ?_
    by_cases hne : p = []
    · subst hne
      cases hsome
    · rw [Machine.follow_empty (fun _ _ _ => rfl) hp.left hne] at hsome
      cases hsome
  have hrange : onePage.mm.rangeEnd ≤ 2 ^ 40 := by
    rw [onePage_sets.rangeEnd]
    decide
  have hrun := (Prod.mk.eta (p := copyPageMaps 4 256 onePage 2 1)).symm
  rw [hsuccess] at hrun
  have hclone := copyPageMaps_clone onePage_source (onePage_sets.marks 2 (by decide)) hempty hrange hrun
  exact ⟨hsuccess, hclone.1 kUpperHalf ⟨le_rfl, by decide⟩⟩

end MikanSaos
