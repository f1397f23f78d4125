import MikanSaos.Paging.Ownership

/-!
# CopyPages — a new root, and the copy of a prototype's page maps

`CopyPageMaps` gives the destination page maps of its own and shares all pages, read-only.
-/

open Reasoning

namespace MikanSaos

open Machine

variable {base : Nat → Prop} {owner owner' : Labels} {m m' : Machine} {r r₀ t g : Nat} {p : List Nat}
  {changed : List Nat → Prop} {w : Bool}

/-! ## Loops over the entries of a page map -/

theorem forEntries_inv {body : Machine → Nat → Error × Machine} {inv : Nat → Machine → Prop}
    {post : Machine → Prop} (hpost : ∀ i m, inv i m → post m)
    (hstep : ∀ i m, i < 512 → inv i m →
      post (body m i).2 ∧ ((body m i).1 = .kSuccess → inv (i + 1) (body m i).2))
    (n : Nat) (hn : n ≤ 512) (m : Machine) (h : inv (512 - n) m) :
    post (forEntries body n m).2 ∧
      ((forEntries body n m).1 = .kSuccess → inv 512 (forEntries body n m).2) := by
  induction n generalizing m with
  | zero => exact ⟨hpost _ m h, fun _ => h⟩
  | succ n ih =>
    obtain ⟨hbody, hnext⟩ := hstep _ m (by omega) h
    rw [forEntries]
    dsimp only
    split
    · rename_i herr
      exact ⟨hbody, fun hok => absurd hok herr⟩
    · rename_i hok
      have hinv := hnext (not_not.mp hok)
      rw [show 512 - (n + 1) + 1 = 512 - n by omega] at hinv
      exact ih (by omega) _ hinv

theorem forEntries_ok {body : Machine → Nat → Error × Machine} {inv : Nat → Machine → Prop}
    (hstep : ∀ i m, i < 512 → inv i m → (body m i).1 = .kSuccess ∧ inv (i + 1) (body m i).2)
    (n : Nat) (hn : n ≤ 512) (m : Machine) (h : inv (512 - n) m) :
    (forEntries body n m).1 = .kSuccess ∧ inv 512 (forEntries body n m).2 := by
  induction n generalizing m with
  | zero => exact ⟨rfl, h⟩
  | succ n ih =>
    obtain ⟨hok, hinv⟩ := hstep _ m (by omega) h
    rw [show 512 - (n + 1) + 1 = 512 - n by omega] at hinv
    rw [forEntries]
    dsimp only
    rw [if_neg (not_not.mpr hok)]
    exact ih (by omega) _ hinv

/-! ## New roots -/

/-- A new empty page map is a root; what its lower half holds does not matter. -/
theorem PageMaps.newRoot (h : PageMaps base owner m) (hg : m.mm.getBit g = false)
    (htables : ∀ t, t ≠ g → m'.tables t = m.tables t)
    (hupper : ∀ i, 256 ≤ i → m'.tables g i = {}) (hmm : m'.mm = (m.withPageMap g).mm)
    (hfreed : m'.doubleFreed = m.doubleFreed) :
    PageMaps base (Function.update owner g (some (.place g []))) m' := by
  have hfree : ¬ m.mm.getBit g = true := by
    rw [hg]
    decide
  have hempty {i : Nat} (hvalid : UpperPath [i]) : m'.tables g i = {} := hupper i (hvalid.2.2 i rfl)
  refine ⟨h.forest.newRoot hfree ?_ ?_ ?_, ?_, ?_, hfreed.trans h.freed⟩
  · intro f
    rw [hmm]
    exact m.getBit_withPageMap g f
  · intro t ht
    funext i
    rw [Machine.refs, Machine.refs, htables t ht]
  · intro i hvalid
    rw [Machine.refs, hempty hvalid]
    rfl
  · intro t r p i ht hvalid
    by_cases htg : t = g
    · rw [htg, Function.update_self] at ht
      cases ht
      rw [htg, hempty hvalid]
      exact ⟨rfl, fun hpresent => absurd hpresent (by decide)⟩
    · rw [Function.update_of_ne htg] at ht
      rw [htables t htg]
      exact h.plain t r p i ht hvalid
  · rw [hmm]
    exact h.range

/-! ## `CopyPageMaps` -/

/-- All pages of the root are read-only, and of the kind `changed`. -/
def ReadOnly (r : Nat) (changed : List Nat → Prop) (owner : Labels) (m : Machine) : Prop :=
  ∀ t p i, owner t = some (.place r p) → p.length = 3 →
    ∀ ref, m.refs t i = some ref → ref.2 = false ∧ changed (p ++ [i])

/-- What is done below one root does not touch the pages of another. -/
theorem ReadOnly.grows {changed' : List Nat → Prop} (h : ReadOnly r₀ changed owner m)
    (hgrows : Grows r changed' w owner m owner' m') (hne : r₀ ≠ r) : ReadOnly r₀ changed owner' m' := by
  intro t p i ht hp ref href
  obtain ⟨hold, htables⟩ := hgrows.others t r₀ p ht hne
  apply h t p i hold hp ref
  rw [Machine.refs, ← htables]
  exact href

/-- Where a copy stands: the entries of `dest` from `start` on are still to be made. -/
structure CopyAt (base : Nat → Prop) (r r₀ : Nat) (changed : List Nat → Prop) (level : Nat)
    (owner : Labels) (m : Machine) (p : List Nat) (start dest src : Nat) : Prop where
  maps : PageMaps base owner m
  apart : r₀ ≠ r
  destPlace : owner dest = some (.place r p)
  srcPlace : owner src = some (.place r₀ p)
  length : p.length + level = 4
  path : ∀ i, start ≤ i → i < 512 → UpperPath (p ++ [i])
  readOnly : ReadOnly r₀ changed owner m
  absent : ∀ i, start ≤ i → (m.tables dest i).present = false

/-- A copy makes entries in `dest` and in new page maps only. -/
structure Copied (base : Nat → Prop) (r : Nat) (changed : List Nat → Prop) (owner : Labels) (m : Machine)
    (dest : Nat) (owner' : Labels) (m' : Machine) : Prop where
  maps : PageMaps base owner' m'
  grows : Grows r changed false owner m owner' m'
  tables : ∀ t, m.mm.getBit t = true → t ≠ dest → m'.tables t = m.tables t

theorem CopyAt.marked {level start dest src : Nat}
    (h : CopyAt base r r₀ changed level owner m p start dest src) :
    m.mm.getBit dest = true ∧ m.mm.getBit src = true ∧ dest ≠ src := by
  refine ⟨h.maps.forest.used_of_place h.destPlace, h.maps.forest.used_of_place h.srcPlace, ?_⟩
  intro heq
  have hplace := h.destPlace.symm.trans (heq ▸ h.srcPlace)
  simp only [Option.some.injEq, Owner.place.injEq] at hplace
  exact h.apart hplace.1.symm

/-- A page is shared. -/
theorem CopyAt.page {i dest src : Nat} (h : CopyAt base r r₀ changed 1 owner m p i dest src)
    (hi : i < 512) (hpresent : (m.tables src i).present = true) :
    Copied base r changed owner m dest owner
      (m.setEntry dest i { m.tables src i with writable := false }) := by
  have hlength : p.length = 3 := Nat.succ.inj h.length
  have hvalid := h.path i (Nat.le_refl i) hi
  have href := Machine.refs_of_present hpresent
  have hflag := h.readOnly src p i h.srcPlace hlength _ href
  rw [show (m.tables src i).writable = false from hflag.1] at href
  have hshared := (h.maps.forest.sharing src r₀ p i _ h.srcPlace hvalid href).2
  have hold (f : Nat) : m.refs dest i ≠ some (f, true) := by
    rw [Machine.refs_of_absent (h.absent i (Nat.le_refl i))]
    exact nofun
  have hplain := h.maps.plain src r₀ p i h.srcPlace hvalid
  have hnew : (m.setEntry dest i { m.tables src i with writable := false }).refs dest i =
      some ((m.tables src i).addr, false) := by
    rw [Machine.refs, Machine.setEntry_self]
    exact if_pos hpresent
  refine ⟨⟨?_, ?_, h.maps.range, h.maps.freed⟩, ?_, ?_⟩
  · refine h.maps.forest.share h.destPlace hvalid hold ?_ hshared (fun _ => Iff.rfl) ?_ hnew
    · rw [LeafPath, List.length_append, hlength]
      rfl
    · exact fun t' i' hne => Machine.refs_setEntry_of_ne hne
  · intro t' r' p' i' ht' hvalid'
    by_cases hsame : t' = dest ∧ i' = i
    · obtain ⟨rfl, rfl⟩ := hsame
      rw [Machine.setEntry_self]
      exact hplain
    · rw [Machine.setEntry_of_ne hsame]
      exact h.maps.plain t' r' p' i' ht' hvalid'
  · exact {
      labels := fun _ _ hf => hf
      marks := fun _ hf => hf
      others := fun t' r' p' ht' hr => by
        refine ⟨ht', Function.update_of_ne ?_ ..⟩
        rintro rfl
        have hplace := h.destPlace.symm.trans ht'
        simp only [Option.some.injEq, Owner.place.injEq] at hplace
        exact hr hplace.1.symm
      pages := fun t' p' i' ht' hp' _ => by
        by_cases hsame : t' = dest ∧ i' = i
        · obtain ⟨rfl, rfl⟩ := hsame
          have hplace := h.destPlace.symm.trans ht'
          simp only [Option.some.injEq, Owner.place.injEq, true_and] at hplace
          rw [← hplace, Machine.setEntry_self]
          exact .inl ⟨hflag.2, rfl⟩
        · exact .inr ⟨ht', Machine.refs_setEntry_of_ne hsame⟩
      bytes := fun _ _ => rfl
      shares := fun hw => by cases hw }
  · exact fun t' _ hne => Function.update_of_ne hne ..

/-- A page map below gets a copy of its own, which is filled next. -/
theorem CopyAt.pageMap {level i dest src : Nat}
    (h : CopyAt base r r₀ changed (level + 1) owner m p i dest src) (hlevel : 0 < level) (hi : i < 512)
    (hpresent : (m.tables src i).present = true) (hg : m.mm.getBit g = false) (hlt : g < m.mm.rangeEnd) :
    Copied base r changed owner m dest (Function.update owner g (some (.place r (p ++ [i]))))
        ((m.withPageMap g).setEntry dest i ((m.tables src i).setPointer g)) ∧
      CopyAt base r r₀ changed level (Function.update owner g (some (.place r (p ++ [i]))))
        ((m.withPageMap g).setEntry dest i ((m.tables src i).setPointer g)) (p ++ [i]) 0 g
        (m.tables src i).addr := by
  have hlength := h.length
  have hvalid := h.path i (Nat.le_refl i) hi
  have href := Machine.refs_of_present hpresent
  have hplain := h.maps.plain src r₀ p i h.srcPlace hvalid
  have haddr : g % 2 ^ 40 = g := Nat.mod_eq_of_lt (Nat.lt_of_lt_of_le hlt h.maps.range)
  have hfree : ¬ m.mm.getBit g = true := by
    rw [hg]
    decide
  have hwritable : (m.tables src i).writable = true := by
    cases hown : (m.tables src i).writable with
    | true => rfl
    | false =>
      rw [hown] at href
      have hshare := (h.maps.forest.sharing src r₀ p i _ h.srcPlace hvalid href).1
      rw [LeafPath, List.length_append, List.length_singleton] at hshare
      omega
  have hold (f : Nat) : m.refs dest i ≠ some (f, true) := by
    rw [Machine.refs_of_absent (h.absent i (Nat.le_refl i))]
    exact (Option.some_ne_none _).symm
  generalize hentry : (m.tables src i).setPointer g = e
  have hmaps := h.maps.link (e := e) h.destPlace hvalid hold hg (by rw [← hentry]; exact hpresent)
    (by rw [← hentry]; exact haddr) (by rw [← hentry]; exact hplain.1)
    (by rw [← hentry]; exact hplain.2 hpresent)
    (by rw [← hentry]; intro hfalse; rw [PageMapEntry.setPointer, hwritable] at hfalse; cases hfalse)
  have hflag : e.writable = true := by
    rw [← hentry]
    exact hwritable
  have hgrows : Grows r changed false owner m _ ((m.withPageMap g).setEntry dest i e) :=
    h.maps.link_grows (e := e) h.destPlace hg (fun hfalse => by rw [hflag] at hfalse; cases hfalse)
      (fun hleaf => by omega)
  rw [hflag, Owner.ofRef, if_pos rfl] at hmaps hgrows
  refine ⟨⟨hmaps, hgrows, ?_⟩, ?_⟩
  · intro t ht hne
    have htg : t ≠ g := by
      rintro rfl
      exact hfree ht
    exact (Function.update_of_ne hne ..).trans (Function.update_of_ne htg ..)
  · have hdest : dest ≠ g := by
      rintro rfl
      exact hfree h.marked.1
    exact {
      maps := hmaps
      apart := h.apart
      destPlace := Function.update_self ..
      srcPlace := by
        rw [hwritable] at href
        exact h.maps.forest.update_ne hfree
          (h.maps.forest.owning src r₀ p i _ h.srcPlace hvalid href)
      length := by
        rw [List.length_append, List.length_singleton]
        omega
      path := fun j _ hj => by
        obtain ⟨hle, hindex, hupper⟩ := hvalid
        refine ⟨?_, ?_, ?_⟩
        · simp only [List.length_append, List.length_singleton]
          omega
        · intro k hk
          rcases List.mem_append.mp hk with hk | hk
          · exact hindex k hk
          · rw [List.mem_singleton.mp hk]
            exact hj
        · rw [List.head?_append_of_ne_nil _ (by simp)]
          exact hupper
      readOnly := h.readOnly.grows hgrows h.apart
      absent := fun j _ => by
        rw [Machine.setEntry_of_ne fun hand => hdest hand.1.symm, Machine.tables_withPageMap] }

/-- What the copy of one page map does. -/
def CopiesPages (base : Nat → Prop) (r r₀ : Nat) (changed : List Nat → Prop) (level start : Nat)
    (run : Machine → (dest src : Nat) → Error × Machine) : Prop :=
  ∀ owner m p dest src, CopyAt base r r₀ changed level owner m p start dest src →
    ∃ owner', Copied base r changed owner m dest owner' (run m dest src).2

/-- A copy below `dest`, or in `dest` itself, is part of the copy. -/
theorem Copied.trans {owner'' : Labels} {m'' : Machine} {dest dest' : Nat}
    (h : Copied base r changed owner m dest owner' m')
    (h' : Copied base r changed owner' m' dest' owner'' m'')
    (hdest : dest' = dest ∨ m.mm.getBit dest' = false) : Copied base r changed owner m dest owner'' m'' where
  maps := h'.maps
  grows := h.grows.trans h'.grows
  tables t ht hne := by
    have hne' : t ≠ dest' := by
      rintro rfl
      rcases hdest with heq | hnew
      · exact hne heq
      · rw [ht] at hnew
        cases hnew
    exact (h'.tables t (h.grows.marks t ht) hne').trans (h.tables t ht hne)

/-- The copy goes on at a later entry. -/
theorem CopyAt.next {level start i dest src : Nat}
    (h : CopyAt base r r₀ changed level owner m p start dest src) (hi : start ≤ i)
    (hcopied : Copied base r changed owner m dest owner' m')
    (habsent : ∀ j, i ≤ j → (m'.tables dest j).present = false) :
    CopyAt base r r₀ changed level owner' m' p i dest src where
  maps := hcopied.maps
  apart := h.apart
  destPlace := hcopied.grows.labels _ _ h.destPlace
  srcPlace := hcopied.grows.labels _ _ h.srcPlace
  length := h.length
  path j hj := h.path j (Nat.le_trans hi hj)
  readOnly := h.readOnly.grows hcopied.grows h.apart
  absent := habsent

/-- One round of the loop. -/
theorem CopyAt.entry {below : Machine → (dest src : Nat) → Error × Machine} {level i dest src : Nat}
    (hbelow : 0 < level → CopiesPages base r r₀ changed level 0 below)
    (h : CopyAt base r r₀ changed (level + 1) owner m p i dest src) (hi : i < 512) :
    ∃ owner', Copied base r changed owner m dest owner' (copyEntry below (level + 1) dest src m i).2 ∧
      ∀ j, i + 1 ≤ j → ((copyEntry below (level + 1) dest src m i).2.tables dest j).present = false := by
  have hrefl : Copied base r changed owner m dest owner m := ⟨h.maps, .refl .., fun _ _ _ => rfl⟩
  have hlater (j : Nat) (hj : i + 1 ≤ j) : (m.tables dest j).present = false :=
    h.absent j (Nat.le_of_succ_le hj)
  have hset (m₁ : Machine) (e : PageMapEntry) (j : Nat) (hj : i + 1 ≤ j) :
      (m₁.setEntry dest i e).tables dest j = m₁.tables dest j :=
    Machine.setEntry_of_ne fun hand => by omega
  unfold copyEntry
  dsimp only
  by_cases hpresent : (m.tables src i).present = true
  · rw [if_neg (not_not.mpr hpresent)]
    by_cases hlevel : level = 0
    · subst hlevel
      rw [if_pos rfl]
      refine ⟨owner, h.page hi hpresent, fun j hj => ?_⟩
      rw [hset m _ j hj]
      exact hlater j hj
    · rw [if_neg (by omega)]
      rcases m.newPageMap_cases with ⟨g, heq, hg, hlt⟩ | ⟨heq, -⟩
      · rw [heq]
        dsimp only
        rw [if_neg (by decide)]
        obtain ⟨hdest, hsrc, hne⟩ := h.marked
        have htable {t : Nat} (ht : m.mm.getBit t = true) : (m.withPageMap g).tables t = m.tables t := by
          apply Function.update_of_ne
          rintro rfl
          rw [ht] at hg
          cases hg
        obtain ⟨hcopied, hat⟩ := h.pageMap (Nat.pos_of_ne_zero hlevel) hi hpresent hg hlt
        obtain ⟨owner', hcopied'⟩ := hbelow (Nat.pos_of_ne_zero hlevel) _ _ _ _ _ hat
        rw [htable hsrc, Machine.setEntry_of_ne fun hand => hne hand.1.symm, htable hsrc]
        refine ⟨owner', hcopied.trans hcopied' (.inr hg), fun j hj => ?_⟩
        have hkeep := hcopied'.tables dest (hcopied.grows.marks dest hdest) fun heq' => by
          rw [heq', hg] at hdest
          cases hdest
        rw [hkeep, hset _ _ j hj, htable hdest]
        exact hlater j hj
      · rw [heq]
        dsimp only
        rw [if_pos (by decide)]
        exact ⟨owner, hrefl, hlater⟩
  · rw [if_pos hpresent]
    exact ⟨owner, hrefl, hlater⟩

theorem copyPageMaps_copies (level : Nat) : ∀ start, start ≤ 512 → 0 < level →
    CopiesPages base r r₀ changed level start (copyPageMaps level start) := by
  induction level with
  | zero => exact fun _ _ h => absurd h (Nat.lt_irrefl 0)
  | succ level ih =>
    intro start hstart _ owner m p dest src h
    have hbelow (hlevel : 0 < level) := ih 0 (Nat.zero_le 512) hlevel
    -- after each round the rest of the page map is still empty
    let inv (i : Nat) (m' : Machine) : Prop := ∃ owner', Copied base r changed owner m dest owner' m' ∧
      start ≤ i ∧ ∀ j, i ≤ j → (m'.tables dest j).present = false
    let post (m' : Machine) : Prop := ∃ owner', Copied base r changed owner m dest owner' m'
    have hpost (i : Nat) (m' : Machine) (hinv : inv i m') : post m' := ⟨hinv.choose, hinv.choose_spec.1⟩
    refine (forEntries_inv hpost ?_ (512 - start) (Nat.sub_le ..) m ?_).1
    · intro i m' hi ⟨owner', hcopied, hle, habsent⟩
      obtain ⟨owner'', hcopied', hlater⟩ := (h.next hle hcopied habsent).entry hbelow hi
      have hall := hcopied.trans hcopied' (.inl rfl)
      exact ⟨⟨owner'', hall⟩, fun _ => ⟨owner'', hall, by omega, hlater⟩⟩
    · refine ⟨owner, ⟨h.maps, .refl .., fun _ _ _ => rfl⟩, by omega, ?_⟩
      rw [show 512 - (512 - start) = start by omega]
      exact h.absent

end MikanSaos
