import Mathlib.Data.List.Induction
import Mathlib.Logic.Function.Basic

/-!
# OwnedForest — tables that refer to cells, and the places that own them

A table has references to cells, which may be tables themselves.  A reference owns its cell or shares it.
Each cell in use is labelled with the one place that owns it, given by a root and a path, or as shared for
good; the labels turn "nothing else refers to this cell" into a fact about each reference alone.
-/

namespace Reasoning

inductive Owner (ν ι : Type*)
  | place (root : ν) (path : List ι)
  | shared

namespace Owner

variable {ν ι : Type*}

/-- The label belongs to the tree of the root. -/
def Under (r : ν) : Option (Owner ν ι) → Prop
  | some (place r' _) => r' = r
  | _ => False

instance [DecidableEq ν] (r : ν) : DecidablePred (Under r : Option (Owner ν ι) → Prop)
  | some (place r' _) => inferInstanceAs (Decidable (r' = r))
  | some shared => isFalse id
  | none => isFalse id

end Owner

open Owner

variable {ν ι : Type*} {valid shareable : List ι → Prop} {base base' used used' : ν → Prop}
  {owner : ν → Option (Owner ν ι)} {refs refs' : ν → ι → Option (ν × Bool)} {r r' t t' f f' g : ν}
  {p p' : List ι} {i i' : ι} {b : Bool}

/-- The label of a cell that the reference at the end of the path leads to. -/
def Owner.ofRef (r : ν) (p : List ι) (own : Bool) : Owner ν ι := if own then .place r p else .shared

/-- The labels describe the tables: `base` is what is in use for other purposes, and `valid` says which
references belong to the forest. -/
structure OwnedForest (valid shareable : List ι → Prop) (base : ν → Prop)
    (owner : ν → Option (Owner ν ι)) (used : ν → Prop) (refs : ν → ι → Option (ν × Bool)) : Prop where
  used_iff : ∀ f, used f ↔ base f ∨ owner f ≠ none
  base_free : ∀ f, base f → owner f = none
  root_eq : ∀ f r, owner f = some (.place r []) → f = r
  attached : ∀ f r p i, owner f = some (.place r (p ++ [i])) →
    valid (p ++ [i]) ∧ ∃ t, owner t = some (.place r p) ∧ refs t i = some (f, true)
  owning : ∀ t r p i f, owner t = some (.place r p) → valid (p ++ [i]) → refs t i = some (f, true) →
    owner f = some (.place r (p ++ [i]))
  sharing : ∀ t r p i f, owner t = some (.place r p) → valid (p ++ [i]) → refs t i = some (f, false) →
    shareable (p ++ [i]) ∧ owner f = some .shared

/-- The cell at the end of a path. -/
def follow (refs : ν → ι → Option (ν × Bool)) : ν → List ι → Option ν
  | t, [] => some t
  | t, i :: p => (refs t i).bind fun ref => follow refs ref.1 p

theorem follow_append (refs : ν → ι → Option (ν × Bool)) (t : ν) (p q : List ι) :
    follow refs t (p ++ q) = (follow refs t p).bind fun f => follow refs f q := by
  induction p generalizing t with
  | nil => rfl
  | cons i p ih =>
    show ((refs t i).bind fun ref => follow refs ref.1 (p ++ q)) = _
    cases h : refs t i with
    | none => simp [follow, h]
    | some ref => simp [follow, h, ih]

namespace OwnedForest

variable (h : OwnedForest valid shareable base owner used refs)
include h

/-! ## What the labels say -/

theorem place_inj (hf : owner f = some (.place r p)) (hf' : owner f' = some (.place r p)) : f = f' := by
  induction p using List.reverseRecOn generalizing f f' with
  | nil => exact (h.root_eq f r hf).trans (h.root_eq f' r hf').symm
  | append_singleton p i ih =>
    -- the place above is unique, and its reference leads to both
    obtain ⟨-, t, ht, href⟩ := h.attached f r p i hf
    obtain ⟨-, t', ht', href'⟩ := h.attached f' r p i hf'
    rw [ih ht ht', href'] at href
    cases href
    rfl

/-- With a place all places above it are taken. -/
theorem exists_prefix {q : List ι} (hf : owner f = some (.place r (p ++ q))) :
    ∃ f', owner f' = some (.place r p) := by
  induction q using List.reverseRecOn generalizing f with
  | nil => exact ⟨f, by rw [hf, List.append_nil]⟩
  | append_singleton q i ih =>
    rw [← List.append_assoc] at hf
    obtain ⟨-, t, ht, -⟩ := h.attached f r (p ++ q) i hf
    exact ih ht

theorem unowned (hg : ¬ used g) : owner g = none := by
  by_contra hne
  exact hg ((h.used_iff g).mpr (.inr hne))

theorem used_of_place (hf : owner f = some (.place r p)) : used f :=
  (h.used_iff f).mpr (.inr (by rw [hf]; exact Option.some_ne_none _))

/-- A cell that is owned has no other reference. -/
theorem exclusive (ht : owner t = some (.place r p)) (hvalid : valid (p ++ [i]))
    (href : refs t i = some (f, true)) (ht' : owner t' = some (.place r' p'))
    (hvalid' : valid (p' ++ [i'])) (href' : refs t' i' = some (f, b)) :
    r = r' ∧ p = p' ∧ i = i' := by
  have hf := h.owning t r p i f ht hvalid href
  cases b with
  | true =>
    have hf' := h.owning t' r' p' i' f ht' hvalid' href'
    rw [hf] at hf'
    simp only [Option.some.injEq, Owner.place.injEq] at hf'
    have hpath := List.append_inj' hf'.2 rfl
    exact ⟨hf'.1, hpath.1, List.singleton_inj.mp hpath.2⟩
  | false =>
    have hshared := (h.sharing t' r' p' i' f ht' hvalid' href').2
    rw [hf] at hshared
    cases hshared

/-- What a reference leads to is in use. -/
theorem used_of_ref (ht : owner t = some (.place r p)) (hvalid : valid (p ++ [i]))
    (href : refs t i = some (f, b)) : used f := by
  apply (h.used_iff f).mpr
  cases b with
  | true =>
    rw [h.owning t r p i f ht hvalid href]
    exact .inr (Option.some_ne_none _)
  | false =>
    rw [(h.sharing t r p i f ht hvalid href).2]
    exact .inr (Option.some_ne_none _)

/-- Only the references of the forest count. -/
theorem congr (hused : ∀ f, used' f ↔ used f)
    (hrefs : ∀ t r p i, owner t = some (.place r p) → valid (p ++ [i]) → refs' t i = refs t i) :
    OwnedForest valid shareable base owner used' refs' where
  used_iff f := (hused f).trans (h.used_iff f)
  base_free := h.base_free
  root_eq := h.root_eq
  attached f r p i hf := by
    obtain ⟨hvalid, t, ht, href⟩ := h.attached f r p i hf
    exact ⟨hvalid, t, ht, (hrefs t r p i ht hvalid).trans href⟩
  owning t r p i f ht hvalid href := h.owning t r p i f ht hvalid (hrefs t r p i ht hvalid ▸ href)
  sharing t r p i f ht hvalid href := h.sharing t r p i f ht hvalid (hrefs t r p i ht hvalid ▸ href)

/-! ## What keeps the labels right -/

variable [DecidableEq ν]

omit [DecidableEq ν] in
/-- A cell with a label is not a new one. -/
theorem ne_new {o : Owner ν ι} (hg : ¬ used g) (hf : owner f = some o) : f ≠ g := by
  rintro rfl
  rw [h.unowned hg] at hf
  cases hf

/-- A label other than that of a new cell is an old one. -/
theorem update_ne {o o' : Owner ν ι} (hg : ¬ used g) (hf : owner f = some o) :
    Function.update owner g (some o') f = some o :=
  (Function.update_of_ne (h.ne_new hg hf) _ _).trans hf

theorem used_iff_new (o : Owner ν ι) (hused : ∀ f, used' f ↔ f = g ∨ used f) (f : ν) :
    used' f ↔ base f ∨ Function.update owner g (some o) f ≠ none := by
  rw [hused, h.used_iff]
  by_cases hf : f = g
  · rw [hf, Function.update_self]
    exact iff_of_true (.inl rfl) (.inr (Option.some_ne_none _))
  · rw [Function.update_of_ne hf]
    exact or_iff_right hf

theorem base_free_new (o : Owner ν ι) (hg : ¬ used g) (hf : base f) :
    Function.update owner g (some o) f = none := by
  have hne : f ≠ g := by
    rintro rfl
    exact hg ((h.used_iff f).mpr (.inl hf))
  rw [Function.update_of_ne hne]
  exact h.base_free f hf

/-- A new empty table becomes a root. -/
theorem newRoot (hg : ¬ used g) (hused : ∀ f, used' f ↔ f = g ∨ used f)
    (hrefs : ∀ t, t ≠ g → refs' t = refs t) (hempty : ∀ i, valid [i] → refs' g i = none) :
    OwnedForest valid shareable base (Function.update owner g (some (.place g []))) used' refs' where
  used_iff := h.used_iff_new _ hused
  base_free _ := h.base_free_new _ hg
  root_eq f r hf := by
    by_cases hfg : f = g
    · rw [hfg, Function.update_self] at hf
      cases hf
      exact hfg
    · rw [Function.update_of_ne hfg] at hf
      exact h.root_eq f r hf
  attached f r p i hf := by
    by_cases hfg : f = g
    · rw [hfg, Function.update_self] at hf
      simp at hf
    · rw [Function.update_of_ne hfg] at hf
      obtain ⟨hvalid, t, ht, href⟩ := h.attached f r p i hf
      refine ⟨hvalid, t, h.update_ne hg ht, ?_⟩
      rw [hrefs t (h.ne_new hg ht)]
      exact href
  owning t r p i f ht hvalid href := by
    by_cases htg : t = g
    · rw [htg, Function.update_self] at ht
      cases ht
      rw [htg, hempty i hvalid] at href
      cases href
    · rw [Function.update_of_ne htg] at ht
      rw [hrefs t htg] at href
      exact h.update_ne hg (h.owning t r p i f ht hvalid href)
  sharing t r p i f ht hvalid href := by
    by_cases htg : t = g
    · rw [htg, Function.update_self] at ht
      cases ht
      rw [htg, hempty i hvalid] at href
      cases href
    · rw [Function.update_of_ne htg] at ht
      rw [hrefs t htg] at href
      have hsharing := h.sharing t r p i f ht hvalid href
      exact ⟨hsharing.1, h.update_ne hg hsharing.2⟩

/-- A reference that owns nothing is replaced by one to a new empty cell. -/
theorem link (ht : owner t = some (.place r p)) (hvalid : valid (p ++ [i]))
    (hold : ∀ f, refs t i ≠ some (f, true)) (hshare : b = false → shareable (p ++ [i])) (hg : ¬ used g)
    (hused : ∀ f, used' f ↔ f = g ∨ used f)
    (hrefs : ∀ t' i', t' ≠ g → ¬ (t' = t ∧ i' = i) → refs' t' i' = refs t' i')
    (hnew : refs' t i = some (g, b)) (hempty : ∀ i', valid (p ++ [i] ++ [i']) → refs' g i' = none) :
    OwnedForest valid shareable base (Function.update owner g (some (.ofRef r (p ++ [i]) b))) used'
      refs' := by
  have hlabel {f : ν} {o : Owner ν ι} (hf : owner f = some o) :
      Function.update owner g (some (Owner.ofRef r (p ++ [i]) b)) f = some o := h.update_ne hg hf
  -- the references of an old table
  have hentry {t' r' : ν} {p' : List ι} {i' : ι} {f : ν} {own : Bool} (ht' : owner t' = some (.place r' p'))
      (hne : t' ≠ g) (href : refs' t' i' = some (f, own)) :
      (refs t' i' = some (f, own)) ∨ (t' = t ∧ i' = i ∧ r' = r ∧ p' = p ∧ f = g ∧ own = b) := by
    by_cases hsame : t' = t ∧ i' = i
    · obtain ⟨rfl, rfl⟩ := hsame
      rw [hnew] at href
      rw [ht] at ht'
      simp only [Option.some.injEq, Prod.mk.injEq, Owner.place.injEq] at href ht'
      exact .inr ⟨rfl, rfl, ht'.1.symm, ht'.2.symm, href.1.symm, href.2.symm⟩
    · rw [hrefs t' i' hne hsame] at href
      exact .inl href
  -- and of the new one
  have hfresh {t' r' : ν} {p' : List ι} {i' : ι} (htg' : t' = g)
      (ht' : Function.update owner g (some (Owner.ofRef r (p ++ [i]) b)) t' = some (.place r' p'))
      (hvalid' : valid (p' ++ [i'])) : refs' t' i' = none := by
    rw [htg', Function.update_self] at ht'
    unfold Owner.ofRef at ht'
    split at ht'
    · simp only [Option.some.injEq, Owner.place.injEq] at ht'
      rw [htg']
      exact hempty i' (by rw [ht'.2]; exact hvalid')
    · cases ht'
  exact {
    used_iff := h.used_iff_new _ hused
    base_free := fun _ => h.base_free_new _ hg
    root_eq := fun f r' hf => by
      by_cases hfg : f = g
      · rw [hfg, Function.update_self, Owner.ofRef] at hf
        split at hf
        · simp at hf
        · cases hf
      · rw [Function.update_of_ne hfg] at hf
        exact h.root_eq f r' hf
    attached := fun f r' p' i' hf => by
      by_cases hfg : f = g
      · -- the new reference
        rw [hfg, Function.update_self, Owner.ofRef] at hf
        split at hf
        · rename_i hown
          simp only [Option.some.injEq, Owner.place.injEq] at hf
          have hpath := List.append_inj' hf.2 rfl
          rw [← hf.1, ← hpath.1, ← List.singleton_inj.mp hpath.2, hfg, ← hown]
          exact ⟨hvalid, t, hlabel ht, hnew⟩
        · cases hf
      · rw [Function.update_of_ne hfg] at hf
        obtain ⟨hvalid', t', ht', href⟩ := h.attached f r' p' i' hf
        refine ⟨hvalid', t', hlabel ht', ?_⟩
        rw [hrefs t' i']
        · exact href
        · exact h.ne_new hg ht'
        · rintro ⟨rfl, rfl⟩
          exact hold f href
    owning := fun t' r' p' i' f ht' hvalid' href => by
      by_cases htg' : t' = g
      · rw [hfresh htg' ht' hvalid'] at href
        cases href
      · rw [Function.update_of_ne htg'] at ht'
        rcases hentry ht' htg' href with hold' | ⟨-, rfl, rfl, rfl, rfl, rfl⟩
        · exact hlabel (h.owning t' r' p' i' f ht' hvalid' hold')
        · exact Function.update_self ..
    sharing := fun t' r' p' i' f ht' hvalid' href => by
      by_cases htg' : t' = g
      · rw [hfresh htg' ht' hvalid'] at href
        cases href
      · rw [Function.update_of_ne htg'] at ht'
        rcases hentry ht' htg' href with hold' | ⟨-, rfl, rfl, rfl, rfl, rfl⟩
        · have hsharing := h.sharing t' r' p' i' f ht' hvalid' hold'
          exact ⟨hsharing.1, hlabel hsharing.2⟩
        · exact ⟨hshare rfl, Function.update_self ..⟩ }

/-- A reference is copied without its ownership: two tables share the cell for good. -/
theorem share (ht : owner t = some (.place r p)) (hvalid : valid (p ++ [i]))
    (hold : ∀ f, refs t i ≠ some (f, true)) (hshare : shareable (p ++ [i]))
    (hf : owner f = some .shared) (hused : ∀ f, used' f ↔ used f)
    (hrefs : ∀ t' i', ¬ (t' = t ∧ i' = i) → refs' t' i' = refs t' i')
    (hnew : refs' t i = some (f, false)) : OwnedForest valid shareable base owner used' refs' where
  used_iff f := (hused f).trans (h.used_iff f)
  base_free := h.base_free
  root_eq := h.root_eq
  attached f' r' p' i' hf' := by
    obtain ⟨hvalid', t', ht', href⟩ := h.attached f' r' p' i' hf'
    refine ⟨hvalid', t', ht', ?_⟩
    rw [hrefs t' i']
    · exact href
    · rintro ⟨rfl, rfl⟩
      exact hold f' href
  owning t' r' p' i' f' ht' hvalid' href := by
    by_cases hsame : t' = t ∧ i' = i
    · rw [hsame.1, hsame.2, hnew] at href
      cases href
    · rw [hrefs t' i' hsame] at href
      exact h.owning t' r' p' i' f' ht' hvalid' href
  sharing t' r' p' i' f' ht' hvalid' href := by
    by_cases hsame : t' = t ∧ i' = i
    · obtain ⟨rfl, rfl⟩ := hsame
      rw [hnew] at href
      rw [ht] at ht'
      simp only [Option.some.injEq, Prod.mk.injEq, Owner.place.injEq] at href ht'
      rw [← ht'.2, ← href.1]
      exact ⟨hshare, hf⟩
    · rw [hrefs t' i' hsame] at href
      exact h.sharing t' r' p' i' f' ht' hvalid' href

/-- A shared reference is taken away. -/
theorem unshare (href : refs t i = some (f, false)) (hused : ∀ f, used' f ↔ used f)
    (hrefs : ∀ t' i', ¬ (t' = t ∧ i' = i) → refs' t' i' = refs t' i') (hnew : refs' t i = none) :
    OwnedForest valid shareable base owner used' refs' := by
  have hentry {t' : ν} {i' : ι} {f' : ν} {own : Bool} (href' : refs' t' i' = some (f', own)) :
      refs t' i' = some (f', own) := by
    by_cases hsame : t' = t ∧ i' = i
    · rw [hsame.1, hsame.2, hnew] at href'
      cases href'
    · rwa [hrefs t' i' hsame] at href'
  exact {
    h with
    used_iff := fun f => (hused f).trans (h.used_iff f)
    attached := fun f' r' p' i' hf' => by
      obtain ⟨hvalid', t', ht', href'⟩ := h.attached f' r' p' i' hf'
      refine ⟨hvalid', t', ht', ?_⟩
      rw [hrefs t' i']
      · exact href'
      · rintro ⟨rfl, rfl⟩
        rw [href] at href'
        cases href'
    owning := fun t' r' p' i' f' ht' hvalid' href' => h.owning t' r' p' i' f' ht' hvalid' (hentry href')
    sharing := fun t' r' p' i' f' ht' hvalid' href' =>
      h.sharing t' r' p' i' f' ht' hvalid' (hentry href') }

/-- An owned cell below which nothing is left is given back. -/
theorem unlink (ht : owner t = some (.place r p)) (hvalid : valid (p ++ [i]))
    (href : refs t i = some (f, true)) (hbelow : ∀ f' i', owner f' ≠ some (.place r (p ++ [i] ++ [i'])))
    (hused : ∀ f', used' f' ↔ used f' ∧ f' ≠ f)
    (hrefs : ∀ t' i', ¬ (t' = t ∧ i' = i) → refs' t' i' = refs t' i') (hnew : refs' t i = none) :
    OwnedForest valid shareable base (Function.update owner f none) used' refs' := by
  have hf := h.owning t r p i f ht hvalid href
  have hlabel {f' : ν} {o : Owner ν ι} (hf' : Function.update owner f none f' = some o) :
      owner f' = some o ∧ f' ≠ f := by
    by_cases heq : f' = f
    · rw [heq, Function.update_self] at hf'
      cases hf'
    · rw [Function.update_of_ne heq] at hf'
      exact ⟨hf', heq⟩
  have hentry {t' : ν} {i' : ι} {f' : ν} {own : Bool} (href' : refs' t' i' = some (f', own)) :
      refs t' i' = some (f', own) ∧ ¬ (t' = t ∧ i' = i) := by
    by_cases hsame : t' = t ∧ i' = i
    · rw [hsame.1, hsame.2, hnew] at href'
      cases href'
    · rw [hrefs t' i' hsame] at href'
      exact ⟨href', hsame⟩
  exact {
    used_iff := fun f' => by
      rw [hused, h.used_iff]
      by_cases heq : f' = f
      · rw [heq, Function.update_self]
        refine iff_of_false (fun hand => hand.2 rfl) ?_
        intro hor
        rcases hor with hbase | hne
        · rw [h.base_free f hbase] at hf
          cases hf
        · exact hne rfl
      · rw [Function.update_of_ne heq]
        exact and_iff_left heq
    base_free := fun f' hf' => by
      by_cases heq : f' = f
      · rw [heq, Function.update_self]
      · rw [Function.update_of_ne heq]
        exact h.base_free f' hf'
    root_eq := fun f' r' hf' => h.root_eq f' r' (hlabel hf').1
    attached := fun f' r' p' i' hf' => by
      obtain ⟨hvalid', t', ht', href'⟩ := h.attached f' r' p' i' (hlabel hf').1
      have htf : t' ≠ f := by
        -- nothing is attached to the cell itself
        rintro rfl
        rw [hf] at ht'
        simp only [Option.some.injEq, Owner.place.injEq] at ht'
        apply hbelow f' i'
        rw [(hlabel hf').1, ht'.1, ht'.2]
      refine ⟨hvalid', t', ?_, ?_⟩
      · rw [Function.update_of_ne htf]
        exact ht'
      · rw [hrefs t' i']
        · exact href'
        · rintro ⟨rfl, rfl⟩
          rw [href] at href'
          simp only [Option.some.injEq, Prod.mk.injEq] at href'
          exact (hlabel hf').2 href'.1.symm
    owning := fun t' r' p' i' f' ht' hvalid' href' => by
      obtain ⟨hold, hne⟩ := hentry href'
      have hf' := h.owning t' r' p' i' f' (hlabel ht').1 hvalid' hold
      rw [Function.update_of_ne]
      · exact hf'
      · rintro rfl
        -- the only reference to it is the one that is taken away
        obtain ⟨rfl, rfl, rfl⟩ := h.exclusive ht hvalid href (hlabel ht').1 hvalid' hold
        exact hne ⟨h.place_inj (hlabel ht').1 ht, rfl⟩
    sharing := fun t' r' p' i' f' ht' hvalid' href' => by
      have hsharing := h.sharing t' r' p' i' f' (hlabel ht').1 hvalid' (hentry href').1
      refine ⟨hsharing.1, ?_⟩
      rw [Function.update_of_ne]
      · exact hsharing.2
      · rintro rfl
        rw [hf] at hsharing
        cases hsharing.2 }

/-- A root is given back, and what is left below it is lost. -/
theorem dropRoot (hr : owner r = some (.place r [])) (hused : ∀ f, used' f ↔ used f ∧ f ≠ r)
    (hrefs : ∀ t, t ≠ r → refs' t = refs t) :
    OwnedForest valid shareable (fun f => base f ∨ (Under r (owner f) ∧ f ≠ r))
      (fun f => if Under r (owner f) then none else owner f) used' refs' := by
  have hunder : Under r (owner r) := by
    rw [hr]
    rfl
  have hlabel {f : ν} {o : Owner ν ι} (hf : (if Under r (owner f) then none else owner f) = some o) :
      owner f = some o ∧ ¬ Under r (some o) := by
    by_cases hbelow : Under r (owner f)
    · rw [if_pos hbelow] at hf
      cases hf
    · rw [if_neg hbelow] at hf
      rw [hf] at hbelow
      exact ⟨hf, hbelow⟩
  have hkeep {f : ν} {o : Owner ν ι} (hf : owner f = some o) (ho : ¬ Under r (some o)) :
      (if Under r (owner f) then none else owner f) = some o := by
    rw [hf]
    exact if_neg ho
  have htable {t r' : ν} {p' : List ι} (ht : owner t = some (.place r' p'))
      (hne : ¬ Under r (some (Owner.place r' p'))) : t ≠ r := by
    rintro rfl
    rw [ht] at hunder
    exact hne hunder
  exact {
    used_iff := fun f => by
      rw [hused, h.used_iff]
      by_cases hbelow : Under r (owner f)
      · rw [if_pos hbelow]
        by_cases heq : f = r
        · refine iff_of_false (fun hand => hand.2 heq) ?_
          intro hor
          rcases hor with (hbase | hlost) | hne
          · rw [h.base_free f hbase] at hbelow
            exact hbelow
          · exact hlost.2 heq
          · exact hne rfl
        · have hne : owner f ≠ none := by
            intro hnone
            rw [hnone] at hbelow
            exact hbelow
          exact iff_of_true ⟨.inr hne, heq⟩ (.inl (.inr ⟨hbelow, heq⟩))
      · rw [if_neg hbelow]
        have heq : f ≠ r := fun heq => hbelow (heq ▸ hunder)
        rw [and_iff_left heq]
        apply or_congr_left
        exact (or_iff_left fun hand => hbelow hand.1).symm
    base_free := fun f hf => by
      rcases hf with hf | hf
      · rw [h.base_free f hf]
        rfl
      · exact if_pos hf.1
    root_eq := fun f r' hf => h.root_eq f r' (hlabel hf).1
    attached := fun f r' p' i' hf => by
      obtain ⟨hold, hne⟩ := hlabel hf
      obtain ⟨hvalid, t, ht, href⟩ := h.attached f r' p' i' hold
      refine ⟨hvalid, t, hkeep ht hne, ?_⟩
      rw [hrefs t (htable ht hne)]
      exact href
    owning := fun t r' p' i' f ht hvalid href => by
      obtain ⟨hold, hne⟩ := hlabel ht
      rw [hrefs t (htable hold hne)] at href
      exact hkeep (h.owning t r' p' i' f hold hvalid href) hne
    sharing := fun t r' p' i' f ht hvalid href => by
      obtain ⟨hold, hne⟩ := hlabel ht
      rw [hrefs t (htable hold hne)] at href
      have hsharing := h.sharing t r' p' i' f hold hvalid href
      exact ⟨hsharing.1, hkeep hsharing.2 id⟩ }

end OwnedForest

end Reasoning
