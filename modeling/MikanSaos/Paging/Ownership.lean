import MikanSaos.Paging.Frames
import MikanSaos.Reasoning.OwnedForest

/-!
# Ownership — who owns the frames of the upper halves

The page maps of the upper halves form a forest: an entry owns its frame if it is writable, and only the
entries of the last level may be read-only.  `PageMaps` says so with a label for each frame.
-/

open Reasoning

namespace MikanSaos

open LinearAddress4Level

abbrev Labels := Nat → Option (Owner Nat Nat)

/-- The indices on the way from level 4 down, for an address in the upper half. -/
def UpperPath (p : List Nat) : Prop := p.length ≤ 4 ∧ (∀ i ∈ p, i < 512) ∧ ∀ i ∈ p.head?, 256 ≤ i

def LeafPath (p : List Nat) : Prop := p.length = 4

/-- The number of the page at a path, or of the part of a page number that the path determines. -/
def pageNumber (p : List Nat) : Nat := p.foldl (fun n i => n * 512 + i) 0

/-- The page of an address, among those that four levels can tell apart. -/
def pageOf (addr : Nat) : Nat := addr / 4096 % 512 ^ 4

namespace Machine

/-- What an entry refers to; it owns the frame if it is writable. -/
def refs (m : Machine) (t i : Nat) : Option (Nat × Bool) :=
  if (m.tables t i).present then some ((m.tables t i).addr, (m.tables t i).writable) else none

end Machine

/-- The labels are those of the page maps in the machine; `base` is what else is allocated. -/
structure PageMaps (base : Nat → Prop) (owner : Labels) (m : Machine) : Prop where
  forest : OwnedForest UpperPath LeafPath base owner (fun f => m.mm.getBit f = true) m.refs
  plain : ∀ t r p i, owner t = some (.place r p) → UpperPath (p ++ [i]) →
    (m.tables t i).hugePage = false ∧ ((m.tables t i).present = true → (m.tables t i).user = true)
  range : m.mm.rangeEnd ≤ 2 ^ 40
  freed : m.doubleFreed = []

/-! ## Paths and addresses -/

theorem UpperPath.prefix {p q : List Nat} (h : UpperPath (p ++ q)) :
    UpperPath p ∨ p = [] := by
  by_cases hp : p = []
  · exact .inr hp
  · obtain ⟨hlength, hindex, hupper⟩ := h
    rw [List.length_append] at hlength
    rw [List.head?_append_of_ne_nil _ hp] at hupper
    exact .inl ⟨by omega, fun i hi => hindex i (List.mem_append_left q hi), hupper⟩

theorem pageNumber_append (p : List Nat) (i : Nat) : pageNumber (p ++ [i]) = pageNumber p * 512 + i := by
  rw [pageNumber, List.foldl_append]
  rfl

/-- The page number one level down. -/
theorem pageOf_part (addr level : Nat) (h : level < 4) :
    pageOf addr / 512 ^ level = pageOf addr / 512 ^ (level + 1) * 512 + part addr (level + 1) := by
  unfold pageOf
  match level, h with
  | 0, _ => simp only [part]; omega
  | 1, _ => simp only [part]; omega
  | 2, _ => simp only [part]; omega
  | 3, _ => simp only [part]; omega

/-- The loop goes on at the first page of the next entry. -/
theorem pageOf_next (addr level : Nat) (h : level < 4) (hlast : part addr (level + 1) < 511) :
    pageOf (clearParts (setPart addr (level + 1) (part addr (level + 1) + 1)) level) =
      (pageOf addr / 512 ^ level + 1) * 512 ^ level := by
  unfold pageOf
  match level, h with
  | 0, _ => simp only [part, setPart, clearParts] at *; omega
  | 1, _ => simp only [part, setPart, clearParts] at *; omega
  | 2, _ => simp only [part, setPart, clearParts] at *; omega
  | 3, _ => simp only [part, setPart, clearParts] at *; omega

namespace Machine

/-! ## What the operations on frames do to the references -/

theorem getBit_withPageMap (m : Machine) (g f : Nat) :
    (m.withPageMap g).mm.getBit f = true ↔ f = g ∨ m.mm.getBit f = true := by
  show f ∈ (m.withPageMap g).mm.marked ↔ f = g ∨ f ∈ m.mm.marked
  rw [marked_withPageMap, Set.mem_insert_iff]

theorem refs_withPageMap {m : Machine} {g t : Nat} (h : t ≠ g) : (m.withPageMap g).refs t = m.refs t := by
  have htable : (m.withPageMap g).tables t = m.tables t := Function.update_of_ne h ..
  funext i
  rw [refs, refs, htable]

theorem tables_withPageMap (m : Machine) (g : Nat) : (m.withPageMap g).tables g = fun _ => {} :=
  Function.update_self ..

theorem setEntry_of_ne {m : Machine} {t i t' i' : Nat} {e : PageMapEntry} (h : ¬ (t' = t ∧ i' = i)) :
    (m.setEntry t i e).tables t' i' = m.tables t' i' := by
  show Function.update m.tables t (Function.update (m.tables t) i e) t' i' = m.tables t' i'
  by_cases ht : t' = t
  · subst ht
    rw [Function.update_self, Function.update_of_ne fun hi => h ⟨rfl, hi⟩]
  · rw [Function.update_of_ne ht]

theorem setEntry_self (m : Machine) (t i : Nat) (e : PageMapEntry) : (m.setEntry t i e).tables t i = e := by
  show Function.update m.tables t (Function.update (m.tables t) i e) t i = e
  rw [Function.update_self, Function.update_self]

theorem setEntry_setEntry (m : Machine) (t i : Nat) (e e' : PageMapEntry) :
    (m.setEntry t i e).setEntry t i e' = m.setEntry t i e' := by
  simp only [setEntry, Function.update_self, Function.update_idem]

theorem refs_setEntry_of_ne {m : Machine} {t i t' i' : Nat} {e : PageMapEntry}
    (h : ¬ (t' = t ∧ i' = i)) : (m.setEntry t i e).refs t' i' = m.refs t' i' := by
  rw [refs, setEntry_of_ne h, refs]

theorem refs_of_present {m : Machine} {t i : Nat} (h : (m.tables t i).present = true) :
    m.refs t i = some ((m.tables t i).addr, (m.tables t i).writable) := if_pos h

theorem refs_of_absent {m : Machine} {t i : Nat} (h : (m.tables t i).present = false) :
    m.refs t i = none := if_neg (by rw [h]; decide)

theorem refs_some {m : Machine} {t i f : Nat} {own : Bool} (h : m.refs t i = some (f, own)) :
    (m.tables t i).present = true ∧ (m.tables t i).addr = f ∧ (m.tables t i).writable = own := by
  by_cases hpresent : (m.tables t i).present = true
  · rw [refs_of_present hpresent] at h
    simp only [Option.some.injEq, Prod.mk.injEq] at h
    exact ⟨hpresent, h⟩
  · rw [refs_of_absent (Bool.eq_false_iff.mpr hpresent)] at h
    cases h

end Machine

/-! ## Page maps that only grow -/

/-- What an operation below the root `r` may do that makes page maps and pages but takes none away: it
makes or marks only pages of the kind `changed`, all with the flag `w`. -/
structure Grows (r : Nat) (changed : List Nat → Prop) (w : Bool) (owner : Labels) (m : Machine)
    (owner' : Labels) (m' : Machine) : Prop where
  labels : ∀ f o, owner f = some o → owner' f = some o
  marks : ∀ f, m.mm.getBit f = true → m'.mm.getBit f = true
  others : ∀ t r' p, owner' t = some (.place r' p) → r' ≠ r →
    owner t = some (.place r' p) ∧ m'.tables t = m.tables t
  pages : ∀ t p i, owner' t = some (.place r p) → p.length = 3 → m'.refs t i ≠ none →
    (changed (p ++ [i]) ∧ (m'.tables t i).writable = w) ∨
      (owner t = some (.place r p) ∧ m'.refs t i = m.refs t i)
  bytes : ∀ f, m.mm.getBit f = true → m'.bytes f = m.bytes f
  shares : w = true → ∀ f, owner' f = some .shared → owner f = some .shared

namespace Grows

variable {base : Nat → Prop} {owner owner' owner'' : Labels} {m m' m'' : Machine} {r : Nat}
  {changed : List Nat → Prop} {w : Bool}

theorem refl (r : Nat) (changed : List Nat → Prop) (w : Bool) (owner : Labels) (m : Machine) :
    Grows r changed w owner m owner m :=
  ⟨fun _ _ h => h, fun _ h => h, fun _ _ _ h _ => ⟨h, rfl⟩, fun _ _ _ h _ _ => .inr ⟨h, rfl⟩,
    fun _ _ => rfl, fun _ _ h => h⟩

theorem trans (h : Grows r changed w owner m owner' m') (h' : Grows r changed w owner' m' owner'' m'') :
    Grows r changed w owner m owner'' m'' where
  labels f o hf := h'.labels f o (h.labels f o hf)
  marks f hf := h'.marks f (h.marks f hf)
  others t r' p ht hr := by
    obtain ⟨ht', htables'⟩ := h'.others t r' p ht hr
    obtain ⟨ht, htables⟩ := h.others t r' p ht' hr
    exact ⟨ht, htables'.trans htables⟩
  pages t p i ht hp href := by
    rcases h'.pages t p i ht hp href with hnew | ⟨ht', hsame⟩
    · exact .inl hnew
    · rw [hsame] at href
      rcases h.pages t p i ht' hp href with ⟨hchanged, hw⟩ | ⟨hold, hsame'⟩
      · refine .inl ⟨hchanged, ?_⟩
        cases hold : m'.refs t i with
        | none => exact absurd hold href
        | some ref =>
          have hm' := Machine.refs_some hold
          have hm'' := Machine.refs_some (hsame.trans hold)
          rw [hm''.2.2, ← hm'.2.2, hw]
      · exact .inr ⟨hold, hsame.trans hsame'⟩
  bytes f hf := (h'.bytes f (h.marks f hf)).trans (h.bytes f hf)
  shares hw f hf := h.shares hw f (h'.shares hw f hf)

/-- Other flags change nothing for the other roots. -/
theorem flags {t i : Nat} {p : List Nat} {e : PageMapEntry} (ht : owner t = some (.place r p))
    (hrefs : (m.setEntry t i e).refs = m.refs) : Grows r changed w owner m owner (m.setEntry t i e) where
  labels _ _ hf := hf
  marks _ hf := hf
  others t' r' p' ht' hr := by
    refine ⟨ht', Function.update_of_ne ?_ ..⟩
    rintro rfl
    rw [ht] at ht'
    simp only [Option.some.injEq, Owner.place.injEq] at ht'
    exact hr ht'.1.symm
  pages t' p' i' ht' _ _ := .inr ⟨ht', by rw [hrefs]⟩
  bytes _ _ := rfl
  shares _ _ hf := hf

end Grows

/-- The pages that the root gets are in frames that were free. -/
def NewFrames (r : Nat) (owner : Labels) (m : Machine) (owner' : Labels) (m' : Machine) : Prop :=
  ∀ t p i ref, owner' t = some (.place r p) → p.length = 3 → m'.refs t i = some ref →
    (owner t = some (.place r p) ∧ m.refs t i = some ref) ∨ m.mm.getBit ref.1 = false

namespace NewFrames

variable {owner owner' owner'' : Labels} {m m' m'' : Machine} {r : Nat}

theorem of_refs (owner : Labels) (hrefs : m'.refs = m.refs) : NewFrames r owner m owner m' := by
  intro t p i ref ht _ href
  rw [hrefs] at href
  exact .inl ⟨ht, href⟩

theorem trans (h : NewFrames r owner m owner' m') (hmarks : ∀ f, m.mm.getBit f = true → m'.mm.getBit f = true)
    (h' : NewFrames r owner' m' owner'' m'') : NewFrames r owner m owner'' m'' := by
  intro t p i ref ht hp href
  rcases h' t p i ref ht hp href with ⟨ht', href'⟩ | hfree
  · exact h t p i ref ht' hp href'
  · apply Or.inr
    by_contra hmark
    rw [hmarks _ (Bool.not_eq_false _ ▸ hmark)] at hfree
    cases hfree

end NewFrames

namespace PageMaps

variable {base : Nat → Prop} {owner owner' : Labels} {m m' : Machine} {r t i g : Nat} {p : List Nat}
  {changed : List Nat → Prop} {w : Bool} {e : PageMapEntry}

/-- The labels only see what an entry refers to. -/
theorem setEntry_same (h : PageMaps base owner m) (hpresent : e.present = (m.tables t i).present)
    (haddr : e.addr = (m.tables t i).addr) (hwritable : e.writable = (m.tables t i).writable)
    (hhuge : e.hugePage = (m.tables t i).hugePage) (huser : e.user = true) :
    PageMaps base owner (m.setEntry t i e) ∧ (m.setEntry t i e).refs = m.refs := by
  have hrefs : (m.setEntry t i e).refs = m.refs := by
    funext t' i'
    by_cases hsame : t' = t ∧ i' = i
    · obtain ⟨rfl, rfl⟩ := hsame
      rw [Machine.refs, Machine.refs, Machine.setEntry_self, hpresent, haddr, hwritable]
    · exact Machine.refs_setEntry_of_ne hsame
  refine ⟨⟨?_, ?_, h.range, h.freed⟩, hrefs⟩
  · rw [hrefs]
    exact h.forest
  · intro t' r' p' i' ht' hvalid'
    by_cases hsame : t' = t ∧ i' = i
    · obtain ⟨rfl, rfl⟩ := hsame
      rw [Machine.setEntry_self, hhuge]
      exact ⟨(h.plain t' r' p' i' ht' hvalid').1, fun _ => huser⟩
    · rw [Machine.setEntry_of_ne hsame]
      exact h.plain t' r' p' i' ht' hvalid'

/-- An entry that owns nothing gets a new frame. -/
theorem link (h : PageMaps base owner m) (ht : owner t = some (.place r p)) (hvalid : UpperPath (p ++ [i]))
    (hold : ∀ f, m.refs t i ≠ some (f, true)) (hg : m.mm.getBit g = false)
    (hpresent : e.present = true) (haddr : e.addr = g) (hhuge : e.hugePage = false)
    (huser : e.user = true) (hshare : e.writable = false → p.length = 3) :
    PageMaps base (Function.update owner g (some (.ofRef r (p ++ [i]) e.writable)))
      ((m.withPageMap g).setEntry t i e) := by
  have hfree : ¬ m.mm.getBit g = true := by
    rw [hg]
    decide
  have htg : t ≠ g := by
    rintro rfl
    exact hfree (h.forest.used_of_place ht)
  have hrefs {t' i' : Nat} (htg' : t' ≠ g) (hne : ¬ (t' = t ∧ i' = i)) :
      ((m.withPageMap g).setEntry t i e).tables t' i' = m.tables t' i' :=
    (Machine.setEntry_of_ne hne).trans (congrFun (Function.update_of_ne htg' ..) i')
  have hempty (i' : Nat) : ((m.withPageMap g).setEntry t i e).tables g i' = {} := by
    rw [Machine.setEntry_of_ne fun hand => htg hand.1.symm, Machine.tables_withPageMap]
  have hentry : ((m.withPageMap g).setEntry t i e).tables t i = e := Machine.setEntry_self ..
  refine ⟨h.forest.link ht hvalid hold ?_ hfree (m.getBit_withPageMap g) ?_ ?_ ?_, ?_, h.range, h.freed⟩
  · intro hfalse
    rw [LeafPath, List.length_append, hshare hfalse]
    rfl
  · intro t' i' htg' hne
    rw [Machine.refs, Machine.refs, hrefs htg' hne]
  · rw [Machine.refs, hentry, if_pos hpresent, haddr]
  · intro i' _
    rw [Machine.refs, hempty]
    rfl
  · intro t' r' p' i' ht' hvalid'
    by_cases htg' : t' = g
    · rw [htg', hempty]
      exact ⟨rfl, nofun⟩
    · by_cases hsame : t' = t ∧ i' = i
      · obtain ⟨rfl, rfl⟩ := hsame
        rw [hentry]
        exact ⟨hhuge, fun _ => huser⟩
      · rw [Function.update_of_ne htg'] at ht'
        rw [hrefs htg' hsame]
        exact h.plain t' r' p' i' ht' hvalid'

/-- What `link` does, as seen by the other page maps. -/
theorem link_grows (h : PageMaps base owner m) (ht : owner t = some (.place r p))
    (hg : m.mm.getBit g = false) (hshare : e.writable = false → p.length = 3)
    (hpages : p.length = 3 → changed (p ++ [i]) ∧ e.writable = w) :
    Grows r changed w owner m (Function.update owner g (some (.ofRef r (p ++ [i]) e.writable)))
      ((m.withPageMap g).setEntry t i e) := by
  have hfree : ¬ m.mm.getBit g = true := by
    rw [hg]
    decide
  have htg : t ≠ g := by
    rintro rfl
    exact hfree (h.forest.used_of_place ht)
  have hlabel {t' r' : Nat} {p' : List Nat} (hne : t' ≠ g)
      (ht' : Function.update owner g (some (.ofRef r (p ++ [i]) e.writable)) t' = some (.place r' p')) :
      owner t' = some (.place r' p') := by
    rwa [Function.update_of_ne hne] at ht'
  have htable {t' : Nat} (hne : t' ≠ g) : (m.withPageMap g).tables t' = m.tables t' :=
    Function.update_of_ne hne ..
  exact {
    labels := fun f o hf => h.forest.update_ne hfree hf
    marks := fun f hf => (m.getBit_withPageMap g f).mpr (.inr hf)
    others := fun t' r' p' ht' hr => by
      have hne : t' ≠ g := by
        rintro rfl
        rw [Function.update_self, Owner.ofRef] at ht'
        split at ht'
        · simp only [Option.some.injEq, Owner.place.injEq] at ht'
          exact hr ht'.1.symm
        · cases ht'
      refine ⟨hlabel hne ht', ?_⟩
      rw [← htable hne]
      apply Function.update_of_ne
      -- the changed page map is one of the root
      rintro rfl
      have hsame := ht.symm.trans (hlabel hne ht')
      simp only [Option.some.injEq, Owner.place.injEq] at hsame
      exact hr hsame.1.symm
    pages := fun t' p' i' ht' hp' href => by
      have hne : t' ≠ g := by
        -- the new page map is empty
        rintro rfl
        apply href
        rw [Machine.refs_setEntry_of_ne fun hand => htg hand.1.symm, Machine.refs,
          Machine.tables_withPageMap]
        rfl
      have hold := hlabel hne ht'
      by_cases hsame : t' = t ∧ i' = i
      · obtain ⟨rfl, rfl⟩ := hsame
        have hplace := ht.symm.trans hold
        simp only [Option.some.injEq, Owner.place.injEq, true_and] at hplace
        subst hplace
        rw [Machine.setEntry_self]
        exact .inl (hpages hp')
      · refine .inr ⟨hold, ?_⟩
        rw [Machine.refs_setEntry_of_ne hsame, Machine.refs_withPageMap hne]
    bytes := fun f hf => by
      apply Function.update_of_ne
      rintro rfl
      exact hfree hf
    shares := fun hw f hf => by
      have hown : e.writable = true := by
        by_contra hnot
        have hfalse := Bool.eq_false_iff.mpr hnot
        rw [(hpages (hshare hfalse)).2, hw] at hfalse
        cases hfalse
      by_cases hfg : f = g
      · rw [hfg, Function.update_self, Owner.ofRef, if_pos hown] at hf
        cases hf
      · rwa [Function.update_of_ne hfg] at hf }

theorem link_newFrames (h : PageMaps base owner m) (ht : owner t = some (.place r p))
    (hg : m.mm.getBit g = false) (haddr : e.addr = g) (own : Owner Nat Nat) :
    NewFrames r owner m (Function.update owner g (some own)) ((m.withPageMap g).setEntry t i e) := by
  have htg : t ≠ g := by
    rintro rfl
    rw [h.forest.used_of_place ht] at hg
    cases hg
  intro t' p' i' ref ht' _ href
  by_cases hsame : t' = t ∧ i' = i
  · obtain ⟨rfl, rfl⟩ := hsame
    have haddr' := (Machine.refs_some href).2.1
    rw [Machine.setEntry_self, haddr] at haddr'
    exact .inr (haddr' ▸ hg)
  · rw [Machine.refs_setEntry_of_ne hsame] at href
    by_cases hnew : t' = g
    · -- the new page map is empty
      rw [hnew, Machine.refs, Machine.tables_withPageMap] at href
      cases href
    · rw [Function.update_of_ne hnew] at ht'
      rw [Machine.refs_withPageMap hnew] at href
      exact .inl ⟨ht', href⟩

/-- The pages of the root that may be marked again have the flag already. -/
def Marked (r : Nat) (changed : List Nat → Prop) (w : Bool) (owner : Labels) (m : Machine) : Prop :=
  ∀ t p i, owner t = some (.place r p) → p.length = 3 → changed (p ++ [i]) →
    ∀ ref, m.refs t i = some ref → ref.2 = w

theorem Marked.grows (h : Marked r changed w owner m) (hgrows : Grows r changed w owner m owner' m') :
    Marked r changed w owner' m' := by
  intro t p i ht hp hchanged ref href
  rcases hgrows.pages t p i ht hp (by rw [href]; exact Option.some_ne_none _) with ⟨-, hw⟩ | ⟨hold, hsame⟩
  · rw [← (Machine.refs_some href).2.2, hw]
  · exact h t p i hold hp hchanged ref (hsame ▸ href)

/-- An entry is made, unless no frame is left, and gets its flags. -/
theorem makeEntry (w' : Bool) (h : PageMaps base owner m) (ht : owner t = some (.place r p))
    (hvalid : UpperPath (p ++ [i])) (hmarked : Marked r changed w owner m)
    (hchanged : p.length = 3 → changed (p ++ [i])) (hw : p.length < 3 → w' = true)
    (hw' : p.length = 3 → w' = w) :
    m.setNewPageMapIfNotPresent t i = (⟨0, .kNoEnoughMemory⟩, m) ∨
    ∃ child m₁ owner', m.setNewPageMapIfNotPresent t i = (⟨child, .kSuccess⟩, m₁) ∧
      PageMaps base owner' (m₁.setEntry t i { m₁.tables t i with user := true, writable := w' }) ∧
      Grows r changed w owner m owner'
        (m₁.setEntry t i { m₁.tables t i with user := true, writable := w' }) ∧
      NewFrames r owner m owner' (m₁.setEntry t i { m₁.tables t i with user := true, writable := w' }) ∧
      (p.length < 3 → owner' child = some (.place r (p ++ [i]))) := by
  have hlength : p.length ≤ 3 := by
    have hle := hvalid.1
    rw [List.length_append, List.length_singleton] at hle
    omega
  cases hpresent : (m.tables t i).present with
  | true =>
    -- the entry is there, with these flags
    have href := Machine.refs_of_present hpresent
    have hwritable : w' = (m.tables t i).writable := by
      by_cases hleaf : p.length = 3
      · rw [hw' hleaf]
        exact (hmarked t p i ht hleaf (hchanged hleaf) _ href).symm
      · rw [hw (by omega)]
        cases hown : (m.tables t i).writable with
        | true => rfl
        | false =>
          rw [hown] at href
          have hshare := (h.forest.sharing t r p i _ ht hvalid href).1
          rw [LeafPath, List.length_append, List.length_singleton] at hshare
          omega
    obtain ⟨hmaps, hrefs⟩ := h.setEntry_same (t := t) (i := i)
      (e := { m.tables t i with user := true, writable := w' }) rfl rfl hwritable rfl rfl
    refine .inr ⟨(m.tables t i).addr, m, owner, Machine.setNewPageMap_present hpresent, hmaps, ?_, ?_, ?_⟩
    · exact .flags ht hrefs
    · exact .of_refs owner hrefs
    · intro hlt
      rw [← hwritable, hw hlt] at href
      exact h.forest.owning t r p i _ ht hvalid href
  | false =>
    rcases Machine.setNewPageMap_absent hpresent with ⟨g, heq, hg, hlt⟩ | ⟨heq, -⟩
    · have haddr : g % 2 ^ 40 = g := Nat.mod_eq_of_lt (Nat.lt_of_lt_of_le hlt h.range)
      have htg : t ≠ g := by
        rintro rfl
        rw [h.forest.used_of_place ht] at hg
        cases hg
      have htable : (m.withPageMap g).tables t i = m.tables t i :=
        congrFun (Function.update_of_ne htg ..) i
      have hhuge := (h.plain t r p i ht hvalid).1
      refine .inr ⟨g, _, Function.update owner g (some (.ofRef r (p ++ [i]) w')), heq, ?_⟩
      rw [Machine.setEntry_setEntry, Machine.setEntry_self]
      rw [← htable] at hhuge
      generalize hentry : ({ ((m.withPageMap g).tables t i).setPointer g with
        present := true, user := true, writable := w' } : PageMapEntry) = e
      have hflag : e.writable = w' := by rw [← hentry]
      rw [← hflag] at hw hw' ⊢
      have hshare : e.writable = false → p.length = 3 := by
        intro hfalse
        by_contra hleaf
        rw [hw (by omega)] at hfalse
        cases hfalse
      have haddr' : e.addr = g := by
        rw [← hentry]
        exact haddr
      refine ⟨h.link (e := e) ht hvalid ?_ hg ?_ haddr' ?_ ?_ hshare, h.link_grows (e := e) ht hg hshare ?_,
        h.link_newFrames (e := e) ht hg haddr' _, ?_⟩
      · rw [Machine.refs_of_absent hpresent]
        exact nofun
      · rw [← hentry]
      · rw [← hentry]
        exact hhuge
      · rw [← hentry]
      · exact fun hleaf => ⟨hchanged hleaf, hw' hleaf⟩
      · intro hlt'
        rw [Function.update_self, hw hlt']
        rfl
    · exact .inl heq

end PageMaps

end MikanSaos
