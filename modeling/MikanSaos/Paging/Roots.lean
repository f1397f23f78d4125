import MikanSaos.Paging.Walks

/-!
# Roots — what is done below one root, and what the others keep

`Keeps` says of some roots that an operation leaves their page maps and their pages alone.  Each operation on
page maps keeps all roots but the one it works on.
-/

open Reasoning

namespace MikanSaos

open Machine LinearAddress4Level

variable {base base' base'' : Nat → Prop} {owner owner' owner'' : Labels} {m m' m'' : Machine}
  {r r₀ t i f g vaddr n : Nat} {p : List Nat} {changed : List Nat → Prop} {w : Bool} {roots roots' : Nat → Prop}

structure Keeps (roots : Nat → Prop) (owner : Labels) (m : Machine) (owner' : Labels) (m' : Machine) : Prop where
  labels : ∀ r, roots r → ∀ t p, owner' t = some (.place r p) ↔ owner t = some (.place r p)
  tables : ∀ r, roots r → ∀ t p, owner t = some (.place r p) → m'.tables t = m.tables t
  bytes : ∀ r, roots r → ∀ t p i ref, owner t = some (.place r p) → UpperPath (p ++ [i]) →
    m.refs t i = some ref → m'.bytes ref.1 = m.bytes ref.1

namespace Keeps

theorem refl (roots : Nat → Prop) (owner : Labels) (m : Machine) : Keeps roots owner m owner m :=
  ⟨fun _ _ _ _ => Iff.rfl, fun _ _ _ _ _ => rfl, fun _ _ _ _ _ _ _ _ _ => rfl⟩

theorem mono (h : Keeps roots owner m owner' m') (hroots : ∀ r, roots' r → roots r) :
    Keeps roots' owner m owner' m' where
  labels r hr := h.labels r (hroots r hr)
  tables r hr := h.tables r (hroots r hr)
  bytes r hr := h.bytes r (hroots r hr)

theorem trans (h : Keeps roots owner m owner' m') (h' : Keeps roots owner' m' owner'' m'') :
    Keeps roots owner m owner'' m'' where
  labels r hr t p := (h'.labels r hr t p).trans (h.labels r hr t p)
  tables r hr t p ht := by
    rw [h'.tables r hr t p ((h.labels r hr t p).mpr ht), h.tables r hr t p ht]
  bytes r hr t p i ref ht hvalid href := by
    have href' : m'.refs t i = some ref := by
      rw [Machine.refs, h.tables r hr t p ht]
      exact href
    rw [h'.bytes r hr t p i ref ((h.labels r hr t p).mpr ht) hvalid href', h.bytes r hr t p i ref ht hvalid href]

theorem readOnly (h : Keeps roots owner m owner' m') (hroot : roots r) (hreadOnly : ReadOnly r changed owner m) :
    ReadOnly r changed owner' m' := by
  intro t p i ht hp ref href
  have hold := (h.labels r hroot t p).mp ht
  rw [Machine.refs, h.tables r hroot t p hold] at href
  exact hreadOnly t p i hold hp ref href

/-- What is read in the upper half of a root that is kept stays. -/
theorem loadByte (h : Keeps roots owner m owner' m') (hmaps : PageMaps base owner m) (hroot : roots r)
    (hr : owner r = some (.place r [])) (hv : Upper vaddr) : m'.loadByte r vaddr = m.loadByte r vaddr := by
  have hwalk := (hmaps.walk_congr hr hv (h.tables r hroot)).1
  unfold Machine.loadByte
  rw [hwalk]
  rcases hmaps.walk_cases hr hv with ⟨ht, hpresent, heq⟩ | ⟨heq, -⟩
  · rw [heq, Option.map_some, Option.map_some,
      h.bytes r hroot _ _ _ _ ht hv.upperPath (Machine.refs_of_present hpresent)]
  · rw [heq, Option.map_none, Option.map_none]

end Keeps

theorem Grows.keeps (h : Grows r changed w owner m owner' m') (hmaps : PageMaps base owner m) :
    Keeps (· ≠ r) owner m owner' m' where
  labels r' hr t p := ⟨fun ht => (h.others t r' p ht hr).1, h.labels t _⟩
  tables r' hr t p ht := (h.others t r' p (h.labels t _ ht) hr).2
  bytes r' hr t p i ref ht hvalid href := by
    obtain ⟨f, b⟩ := ref
    have hmark := hmaps.forest.used_of_ref ht hvalid href
    exact h.bytes f hmark

theorem Cleaned.keeps {gone : List Nat → Prop} (h : Cleaned base r p gone owner m owner' m') :
    Keeps (· ≠ r) owner m owner' m' where
  labels r' hr t q := by
    refine ⟨fun ht => (h.dropped t _ ht).1, fun ht => h.kept t _ ht fun q' hq => ?_⟩
    simp only [Owner.place.injEq] at hq
    exact absurd hq.1 hr
  tables r' hr t q ht := by
    apply h.tables
    intro q' hq
    rw [ht] at hq
    simp only [Option.some.injEq, Owner.place.injEq] at hq
    exact absurd hq.1 hr
  bytes r' hr t q i ref ht hvalid href := by rw [h.bytes]

/-! ## What is done below a root -/

/-- An operation that works on the page maps of the root `r`. -/
structure Below (base : Nat → Prop) (r : Nat) (owner : Labels) (m : Machine) (owner' : Labels) (m' : Machine) :
    Prop where
  maps : PageMaps base owner' m'
  keeps : Keeps (· ≠ r) owner m owner' m'
  root : owner' r = some (.place r [])
  shares : (∀ f, owner f ≠ some .shared) → ∀ f, owner' f ≠ some .shared

namespace Below

theorem refl (h : PageMaps base owner m) (hr : owner r = some (.place r [])) : Below base r owner m owner m :=
  ⟨h, .refl .., hr, id⟩

theorem trans (h : Below base r owner m owner' m') (h' : Below base r owner' m' owner'' m'') :
    Below base r owner m owner'' m'' where
  maps := h'.maps
  keeps := h.keeps.trans h'.keeps
  root := h'.root
  shares hnone := h'.shares (h.shares hnone)

end Below

theorem Grows.below (h : Grows r changed true owner m owner' m') (hmaps : PageMaps base owner m)
    (hmaps' : PageMaps base owner' m') (hr : owner r = some (.place r [])) : Below base r owner m owner' m' where
  maps := hmaps'
  keeps := h.keeps hmaps
  root := h.labels r _ hr
  shares hnone f hf := hnone f (h.shares rfl f hf)

/-! ## Stores -/

namespace PageMaps

theorem with_bytes (h : PageMaps base owner m) (bytes : Nat → Nat → UInt8) :
    PageMaps base owner { m with bytes := bytes } := ⟨h.forest, h.plain, h.range, h.freed⟩

/-- A frame that one root owns is not a page of another. -/
theorem setByte_keeps (h : PageMaps base owner m) (ht : owner t = some (.place r p)) (hvalid : UpperPath (p ++ [i]))
    (href : m.refs t i = some (f, true)) (offset : Nat) (byte : UInt8) :
    Keeps (· ≠ r) owner m owner (m.setByte f offset byte) where
  labels _ _ _ _ := Iff.rfl
  tables _ _ _ _ _ := rfl
  bytes r' hr t' p' i' ref ht' hvalid' href' := by
    obtain ⟨f', b⟩ := ref
    apply Function.update_of_ne
    rintro rfl
    exact hr (h.forest.exclusive ht hvalid href ht' hvalid' href').1.symm

/-- A store through the root to a page that is writable, or to no page. -/
theorem storeByte_below (h : PageMaps base owner m) (hr : owner r = some (.place r [])) (hv : Upper vaddr)
    (hwritable : ∀ e, m.walk r vaddr = some e → e.writable = true) (byte : UInt8) :
    Below base r owner m owner (m.storeByte r vaddr byte) := by
  unfold storeByte
  rcases h.walk_cases hr hv with ⟨ht, hpresent, heq⟩ | ⟨heq, -⟩
  · have href := Machine.refs_of_present hpresent
    rw [hwritable _ heq] at href
    rw [heq]
    exact ⟨h.with_bytes _, h.setByte_keeps ht hv.upperPath href _ byte, hr, id⟩
  · rw [heq]
    exact .refl h hr

theorem storeBytes_below (h : PageMaps base owner m) (hr : owner r = some (.place r [])) {dst : Nat}
    (src : Nat → UInt8) (hv : ∀ k < n, Upper ((dst + k) % 2 ^ 64))
    (hwritable : ∀ k < n, ∀ e, m.walk r ((dst + k) % 2 ^ 64) = some e → e.writable = true) :
    Below base r owner m owner (m.storeBytes r dst src n) := by
  induction n with
  | zero => exact .refl h hr
  | succ n ih =>
    have hbelow := ih (fun k hk => hv k (by omega)) fun k hk => hwritable k (by omega)
    rw [storeBytes]
    obtain ⟨bytes, heq⟩ := m.storeBytes_bytes r dst src n
    rw [heq] at hbelow ⊢
    -- the stores before leave the walk as it was
    exact hbelow.trans (hbelow.maps.storeByte_below hr (hv n (Nat.lt_succ_self n)) (hwritable n (Nat.lt_succ_self n)) _)

end PageMaps

/-! ## New roots and freed roots -/

/-- A root alone: everything else that is allocated is `base`. -/
theorem PageMaps.single (hr : m.mm.getBit r = true) (hupper : ∀ i, 256 ≤ i → i < 512 → (m.tables r i).present = false)
    (hhuge : ∀ i, 256 ≤ i → i < 512 → (m.tables r i).hugePage = false)
    (hrange : m.mm.rangeEnd ≤ 2 ^ 40) (hfreed : m.doubleFreed = []) :
    PageMaps (fun f => m.mm.getBit f = true ∧ f ≠ r) (fun f => if f = r then some (.place r []) else none) m := by
  have hroot {f r' : Nat} {p : List Nat}
      (hf : (if f = r then some (Owner.place r []) else none : Option (Owner Nat Nat)) = some (.place r' p)) :
      f = r ∧ r' = r ∧ p = [] := by
    split at hf
    · simp only [Option.some.injEq, Owner.place.injEq] at hf
      exact ⟨‹_›, hf.1.symm, hf.2.symm⟩
    · cases hf
  have habsent {i : Nat} (hvalid : UpperPath ([] ++ [i])) : m.refs r i = none := by
    obtain ⟨hle, hlt⟩ := (upperPath_singleton i).mp hvalid
    exact Machine.refs_of_absent (hupper i hle hlt)
  refine ⟨⟨?_, ?_, ?_, ?_, ?_, ?_⟩, ?_, hrange, hfreed⟩
  · intro f
    by_cases hf : f = r
    · simp [hf, hr]
    · simp [hf]
  · exact fun f hf => if_neg hf.2
  · intro f r' hf
    obtain ⟨rfl, rfl, -⟩ := hroot hf
    rfl
  · intro f r' p i hf
    simpa using (hroot hf).2.2
  · intro t r' p i f ht hvalid href
    obtain ⟨rfl, rfl, rfl⟩ := hroot ht
    rw [habsent hvalid] at href
    cases href
  · intro t r' p i f ht hvalid href
    obtain ⟨rfl, rfl, rfl⟩ := hroot ht
    rw [habsent hvalid] at href
    cases href
  · intro t r' p i ht hvalid
    obtain ⟨rfl, rfl, rfl⟩ := hroot ht
    obtain ⟨hle, hlt⟩ := (upperPath_singleton i).mp hvalid
    refine ⟨hhuge i hle hlt, fun hpresent => ?_⟩
    rw [hupper i hle hlt] at hpresent
    cases hpresent

namespace PageMaps

theorem newRoot_keeps (h : PageMaps base owner m) (hg : m.mm.getBit g = false)
    (htables : ∀ t, t ≠ g → m'.tables t = m.tables t) (hbytes : ∀ f, f ≠ g → m'.bytes f = m.bytes f) :
    Keeps (· ≠ g) owner m (Function.update owner g (some (.place g []))) m' := by
  have hfree : ¬ m.mm.getBit g = true := by
    rw [hg]
    decide
  have hne {t r : Nat} {p : List Nat} (ht : owner t = some (.place r p)) : t ≠ g := by
    rintro rfl
    exact hfree (h.forest.used_of_place ht)
  exact {
    labels := fun r hr t p => by
      by_cases ht : t = g
      · rw [ht, Function.update_self, h.forest.unowned hfree]
        simp only [Option.some.injEq, Owner.place.injEq, reduceCtorEq, iff_false, not_and]
        exact fun heq => absurd heq.symm hr
      · rw [Function.update_of_ne ht]
    tables := fun r _ t p ht => htables t (hne ht)
    bytes := fun r _ t p i ref ht hvalid href => by
      obtain ⟨f, b⟩ := ref
      have hmark : m.mm.getBit f = true := h.forest.used_of_ref ht hvalid href
      apply hbytes
      rintro rfl
      exact hfree hmark }

/-- A root is given back; what is still below it stays allocated for good. -/
theorem freeRoot (h : PageMaps base owner m) (hr : owner r = some (.place r [])) :
    ∃ base' owner', PageMaps base' owner' (m.freeFrame r).2 ∧ Keeps (· ≠ r) owner m owner' (m.freeFrame r).2 ∧
      (∀ f q, owner' f ≠ some (.place r q)) ∧ (∀ f o, owner' f = some o → owner f = some o) ∧
      ((∀ f q, owner f = some (.place r q) → q = []) → base' = base) := by
  have hmark : m.mm.getBit r = true := h.forest.used_of_place hr
  have hlabel {f : Nat} {o : Owner Nat Nat} (hf : (if Owner.Under r (owner f) then none else owner f) = some o) :
      owner f = some o ∧ ¬ Owner.Under r (some o) := by
    by_cases hunder : Owner.Under r (owner f)
    · rw [if_pos hunder] at hf
      cases hf
    · rw [if_neg hunder] at hf
      rw [hf] at hunder
      exact ⟨hf, hunder⟩
  refine ⟨_, _, ⟨h.forest.dropRoot hr (m.getBit_freeFrame r) fun _ _ => rfl, ?_, h.range, (if_pos hmark).trans h.freed⟩,
    ⟨?_, fun _ _ _ _ _ => rfl, fun _ _ _ _ _ _ _ _ _ => rfl⟩, ?_, fun f o hf => (hlabel hf).1, ?_⟩
  · exact fun t r' p i ht hvalid => h.plain t r' p i (hlabel ht).1 hvalid
  · refine fun r' hr' t p => ⟨fun ht => (hlabel ht).1, fun ht => ?_⟩
    rw [ht]
    exact if_neg hr'
  · exact fun f q hf => (hlabel hf).2 rfl
  · intro hbare
    funext f
    refine propext (or_iff_left fun ⟨hunder, hne⟩ => ?_)
    -- the root itself is the only label
    cases hf : owner f with
    | none =>
      rw [hf] at hunder
      exact hunder
    | some o =>
      cases o with
      | shared =>
        rw [hf] at hunder
        exact hunder
      | place r' q =>
        rw [hf] at hunder
        obtain rfl : r' = r := hunder
        rw [hbare f q hf] at hf
        exact hne (h.forest.root_eq f _ hf)

end PageMaps

/-! ## Pages -/

namespace PageMaps

/-- A page of a kind that is marked has the flag. -/
theorem Marked.walk (hmarked : Marked r changed w owner m) (h : PageMaps base owner m)
    (hr : owner r = some (.place r [])) (hv : Upper vaddr) (hchanged : changed (tablePath vaddr ++ [part vaddr 1]))
    {e : PageMapEntry} (hwalk : m.walk r vaddr = some e) : e.writable = w := by
  rcases h.walk_cases hr hv with ⟨ht, hpresent, heq⟩ | ⟨heq, -⟩
  · rw [heq] at hwalk
    cases hwalk
    exact hmarked _ _ _ ht rfl hchanged _ (Machine.refs_of_present hpresent)
  · rw [heq] at hwalk
    cases hwalk

/-- A page that is made where there was none is writable. -/
theorem setupPage_below (h : PageMaps base owner m) (hr : owner r = some (.place r [])) (hv : Upper vaddr)
    (hwalk : m.walk r vaddr = none) :
    (∃ owner', Below base r owner m owner' (m.setupPageMaps r vaddr 1).2) ∧
      ∀ v, Upper v → v / 4096 = vaddr / 4096 → ∀ e, (m.setupPageMaps r vaddr 1).2.walk r v = some e →
        e.writable = true := by
  have hpage {q : List Nat} (hvalid : UpperPath q) (hq : q.length = 4) (heq : pageNumber q = pageOf vaddr) :
      q = tablePath vaddr ++ [part vaddr 1] :=
    pageNumber_inj hq hvalid.2.1 hv.upperPath.2.1 (heq.trans (pageNumber_tablePath vaddr).symm)
  have hmarked : Marked r (· = tablePath vaddr ++ [part vaddr 1]) true owner m := by
    intro t p i ht hp hchanged ref href
    -- there is no such page yet
    obtain ⟨rfl, hi⟩ := List.append_inj' hchanged rfl
    obtain rfl := List.singleton_inj.mp hi
    rcases h.walk_cases hr hv with ⟨-, -, heq⟩ | ⟨-, habsent⟩
    · rw [heq] at hwalk
      cases hwalk
    · rw [Machine.refs_of_absent (habsent t ht)] at href
      cases href
  obtain ⟨owner', hmaps, hgrows, -⟩ := setupPageMaps_grows h hr hv.pageOf_le hmarked (n := 1)
    fun q hvalid hq hlo hhi => hpage hvalid hq (by omega)
  refine ⟨⟨owner', hgrows.below h hmaps hr⟩, fun v hv' hsame e hwalk' => ?_⟩
  exact (hmarked.grows hgrows).walk hmaps (hgrows.labels r _ hr) hv' (part_eq hsame) hwalk'

end PageMaps

theorem Grows.with_bytes (h : Grows r changed w owner m owner' m') {bytes : Nat → Nat → UInt8}
    (hbytes : ∀ f, m.mm.getBit f = true → bytes f = m.bytes f) :
    Grows r changed w owner m owner' { m' with bytes := bytes } :=
  ⟨h.labels, h.marks, h.others, h.pages, hbytes, h.shares⟩

/-- The copy of a shared page belongs to the root. -/
theorem PageMaps.copyOnePage_below (h : PageMaps base owner m) (hr : owner r = some (.place r [])) (hv : Upper vaddr)
    {e : PageMapEntry} (hwalk : m.walk r vaddr = some e) (hshared : e.writable = false) :
    ∃ owner', Below base r owner m owner' (m.copyOnePage r vaddr).2 := by
  rcases h.walk_cases hr hv with ⟨ht, hpresent, heq⟩ | ⟨heq, -⟩
  swap
  · rw [heq] at hwalk
    cases hwalk
  rw [heq] at hwalk
  cases hwalk
  unfold copyOnePage
  rcases m.newPageMap_cases with ⟨g, hnew, hg, hlt⟩ | ⟨hnew, -⟩
  swap
  · rw [hnew]
    exact ⟨owner, .refl h hr⟩
  rw [hnew]
  dsimp only
  rw [if_neg (by decide)]
  have haddr : g % 2 ^ 40 = g := Nat.mod_eq_of_lt (Nat.lt_of_lt_of_le hlt h.range)
  have htables {t r : Nat} {p : List Nat} (ht : owner t = some (.place r p)) : (m.withPageMap g).tables t = m.tables t := by
    apply Function.update_of_ne
    rintro rfl
    rw [h.forest.used_of_place ht] at hg
    cases hg
  have hleaf : (m.withPageMap g).leafTable r vaddr = m.leafTable r vaddr :=
    (h.walk_congr hr hv fun t p ht => htables ht).2 (by rw [heq]; exact Option.some_ne_none _)
  obtain ⟨hhuge, huser⟩ := h.plain _ _ _ _ ht hv.upperPath
  have hold (f : Nat) : m.refs (m.leafTable r vaddr) (part vaddr 1) ≠ some (f, true) := by
    rw [Machine.refs_of_present hpresent, hshared]
    simp
  generalize hentry : ({ (m.tables (m.leafTable r vaddr) (part vaddr 1)).setPointer g with writable := true } :
    PageMapEntry) = e
  have hown : e.writable = true := by rw [← hentry]
  have hshare : e.writable = false → (tablePath vaddr).length = 3 := fun _ => rfl
  have hmaps := h.link (e := e) ht hv.upperPath hold hg (by rw [← hentry]; exact hpresent)
    (by rw [← hentry]; exact haddr) (by rw [← hentry]; exact hhuge) (by rw [← hentry]; exact huser hpresent) hshare
  have hgrows : Grows r (fun _ => True) true owner m
      (Function.update owner g (some (.ofRef r (tablePath vaddr ++ [part vaddr 1]) e.writable)))
      ((m.withPageMap g).setEntry (m.leafTable r vaddr) (part vaddr 1) e) :=
    h.link_grows (e := e) ht hg hshare fun _ => ⟨trivial, hown⟩
  -- the entry that `SetPageContent` changes
  have hcontent (bytes : Nat → Nat → UInt8) :
      setPageContent 4 { m.withPageMap g with bytes := bytes } r vaddr g =
        { (m.withPageMap g).setEntry (m.leafTable r vaddr) (part vaddr 1) e with bytes := bytes } := by
    show ({ m.withPageMap g with bytes := bytes } : Machine).setEntry ((m.withPageMap g).leafTable r vaddr) (part vaddr 1)
      { ((m.withPageMap g).tables ((m.withPageMap g).leafTable r vaddr) (part vaddr 1)).setPointer g with
        writable := true } = _
    rw [hleaf, htables ht, hentry]
    rfl
  rw [hcontent]
  refine ⟨_, Grows.below (hgrows.with_bytes fun f hf => ?_) h (hmaps.with_bytes _) hr⟩
  have hne : f ≠ g := by
    rintro rfl
    rw [hf] at hg
    cases hg
  rw [Function.update_of_ne hne]
  exact Function.update_of_ne hne ..

/-- An instance gets the pages of the prototype. -/
theorem copyPageMaps_grows {dest src : Nat} (h : PageMaps base owner m) (hdest : owner dest = some (.place dest []))
    (hsrc : owner src = some (.place src [])) (hne : src ≠ dest) (hreadOnly : ReadOnly src changed owner m)
    (habsent : ∀ i, 256 ≤ i → (m.tables dest i).present = false) :
    ∃ owner', PageMaps base owner' (copyPageMaps 4 256 m dest src).2 ∧
      Grows dest changed false owner m owner' (copyPageMaps 4 256 m dest src).2 := by
  have hat : CopyAt base dest src changed 4 owner m [] 256 dest src := {
    maps := h
    apart := hne
    destPlace := hdest
    srcPlace := hsrc
    length := rfl
    path := fun i hle hlt => (upperPath_singleton i).mpr ⟨hle, hlt⟩
    readOnly := hreadOnly
    absent := habsent }
  obtain ⟨owner', hcopied⟩ := copyPageMaps_copies 4 256 (by decide) (by decide) _ _ _ _ _ hat
  exact ⟨owner', hcopied.maps, hcopied.grows⟩

end MikanSaos
