import Mathlib.Tactic.Ring
import MikanSaos.Paging.Ownership

/-!
# SetupPages — what `SetupPageMaps` makes, and where

`SetupPageMap` goes through the pages in order and returns how many are left at the end of a page map.
So it makes pages only among those it was asked for, and it takes nothing away, even if it runs out of
frames.
-/

open Reasoning

namespace MikanSaos

open LinearAddress4Level Machine

variable {base : Nat → Prop} {owner owner' : Labels} {m m' : Machine} {r t addr n level : Nat}
  {p : List Nat} {changed : List Nat → Prop} {w : Bool}

/-! ## Where the loop stands -/

/-- An address whose page is below the page map of level `level` at the path `p`. -/
structure Position (level : Nat) (p : List Nat) (addr : Nat) : Prop where
  length : p.length + level = 4
  path : UpperPath p ∨ p = []
  page : pageNumber p = pageOf addr / 512 ^ level
  upper : 256 ≤ pageOf addr / 512 ^ 3

theorem part_succ_lt (addr level : Nat) (h : level < 4) : part addr (level + 1) < 512 := by
  match level, h with
  | 0, _ => exact Nat.mod_lt _ (by decide)
  | 1, _ => exact Nat.mod_lt _ (by decide)
  | 2, _ => exact Nat.mod_lt _ (by decide)
  | 3, _ => exact Nat.mod_lt _ (by decide)

theorem pageOf_lt (addr : Nat) : pageOf addr < 512 ^ 4 := Nat.mod_lt _ (by decide)

namespace Position

/-- At the root stands every address of the upper half. -/
theorem root (hupper : 256 ≤ pageOf addr / 512 ^ 3) : Position 4 [] addr where
  length := rfl
  path := .inr rfl
  page := (Nat.div_eq_of_lt (pageOf_lt addr)).symm
  upper := hupper

/-- The entry at the index of the address belongs to the upper half. -/
theorem upperPath (h : Position (level + 1) p addr) : UpperPath (p ++ [part addr (level + 1)]) := by
  have hlength := h.length
  have hlt := part_succ_lt addr level (by omega)
  refine ⟨by rw [List.length_append, List.length_singleton]; omega, ?_, ?_⟩
  · intro i hi
    rcases List.mem_append.mp hi with hp | hlast
    · rcases h.path with hpath | rfl
      · exact hpath.2.1 i hp
      · cases hp
    · rw [List.mem_singleton.mp hlast]
      exact hlt
  · by_cases hp : p = []
    · -- the first index is that of the upper half
      subst hp
      have hlevel : level = 3 := by simpa using hlength
      subst hlevel
      have hpart := pageOf_part addr 3 (by decide)
      rw [Nat.div_eq_of_lt (pageOf_lt addr)] at hpart
      have hupper := h.upper
      intro i hi
      cases hi
      omega
    · rw [List.head?_append_of_ne_nil _ hp]
      exact (h.path.resolve_right hp).2.2

/-- The page number of that entry. -/
theorem entry_page (h : Position (level + 1) p addr) :
    pageNumber (p ++ [part addr (level + 1)]) = pageOf addr / 512 ^ level := by
  have hlength := h.length
  rw [pageNumber_append, pageOf_part addr level (by omega), h.page]

theorem below (h : Position (level + 1) p addr) : Position level (p ++ [part addr (level + 1)]) addr where
  length := by
    have hlength := h.length
    rw [List.length_append, List.length_singleton]
    omega
  path := .inl h.upperPath
  page := h.entry_page
  upper := h.upper

theorem lt_stop (h : Position level p addr) : pageOf addr < (pageNumber p + 1) * 512 ^ level := by
  rw [h.page]
  have hpos : 0 < 512 ^ level := Nat.pow_pos (by decide)
  exact (Nat.div_lt_iff_lt_mul hpos).mp (Nat.lt_succ_self _)

/-- The next round starts at the first page of the next entry. -/
theorem pageOf_next (h : Position (level + 1) p addr) (hlast : part addr (level + 1) < 511) :
    pageOf (clearParts (setPart addr (level + 1) (part addr (level + 1) + 1)) level) =
      (pageNumber (p ++ [part addr (level + 1)]) + 1) * 512 ^ level := by
  have hlength := h.length
  rw [h.entry_page]
  exact MikanSaos.pageOf_next addr level (by omega) hlast

theorem next (h : Position (level + 1) p addr) (hlast : part addr (level + 1) < 511) :
    Position (level + 1) p (clearParts (setPart addr (level + 1) (part addr (level + 1) + 1)) level) where
  length := h.length
  path := h.path
  page := by
    have hpos : 0 < 512 ^ level := Nat.pow_pos (by decide)
    rw [h.pageOf_next hlast, pow_succ, ← Nat.div_div_eq_div_mul, Nat.mul_div_cancel _ hpos, pageNumber_append]
    omega
  upper := by
    rw [h.pageOf_next hlast]
    exact Nat.le_trans h.upper (Nat.div_le_div_right (Nat.le_of_lt h.below.lt_stop))

theorem part_next (h : Position (level + 1) p addr) (hlast : part addr (level + 1) < 511) :
    part (clearParts (setPart addr (level + 1) (part addr (level + 1) + 1)) level) (level + 1) =
      part addr (level + 1) + 1 := by
  have hpos : 0 < 512 ^ level := Nat.pow_pos (by decide)
  have hentry := (h.next hlast).entry_page
  rw [h.pageOf_next hlast, Nat.mul_div_cancel _ hpos, pageNumber_append, pageNumber_append] at hentry
  omega

/-- The last entry of a page map ends where the page map does. -/
theorem stop_last (h : part addr (level + 1) = 511) :
    (pageNumber (p ++ [part addr (level + 1)]) + 1) * 512 ^ level = (pageNumber p + 1) * 512 ^ (level + 1) := by
  rw [pageNumber_append, h, pow_succ]
  ring

end Position

/-! ## Pages that are made -/

/-- A page map below the root `r`, and the pages from `addr` on that are to be made in it. -/
structure SetupAt (base : Nat → Prop) (r : Nat) (changed : List Nat → Prop) (w : Bool) (level : Nat)
    (owner : Labels) (m : Machine) (p : List Nat) (t addr n : Nat) : Prop where
  maps : PageMaps base owner m
  table : owner t = some (.place r p)
  length : p.length + level = 4
  path : UpperPath p ∨ p = []
  page : pageNumber p = pageOf addr / 512 ^ level
  upper : 256 ≤ pageOf addr / 512 ^ 3
  marked : PageMaps.Marked r changed w owner m
  changed : ∀ q, UpperPath q → q.length = 4 → pageOf addr ≤ pageNumber q →
    pageNumber q < pageOf addr + n → changed q

/-- All pages are made, or those up to the page number `stop`. -/
def UpTo (addr n stop : Nat) (r : WithError Nat) : Prop :=
  r.error = .kSuccess → r.value = 0 ∨ pageOf addr + n = stop + r.value

/-- The call makes pages up to the end of the page map, and does nothing else. -/
def MakesPages (base : Nat → Prop) (r : Nat) (changed : List Nat → Prop) (w : Bool) (level : Nat)
    (run : Machine → (pageMap addr num4kpages : Nat) → WithError Nat × Machine) : Prop :=
  ∀ owner m p t addr n, SetupAt base r changed w level owner m p t addr n →
    UpTo addr n ((pageNumber p + 1) * 512 ^ level) (run m t addr n).1 ∧
      ∃ owner', PageMaps base owner' (run m t addr n).2 ∧
        Grows r changed w owner m owner' (run m t addr n).2 ∧ NewFrames r owner m owner' (run m t addr n).2

namespace SetupAt

theorem position (h : SetupAt base r changed w level owner m p t addr n) : Position level p addr :=
  ⟨h.length, h.path, h.page, h.upper⟩

/-- In a page map of the last level the entry is the first of the pages that are asked for. -/
theorem changed_entry (h : SetupAt base r changed w (level + 1) owner m p t addr n) (hn : 0 < n)
    (hleaf : p.length = 3) : changed (p ++ [part addr (level + 1)]) := by
  have hlength := h.length
  have hlevel : level = 0 := by omega
  subst hlevel
  have hpage := h.position.entry_page
  rw [Nat.pow_zero, Nat.div_one] at hpage
  apply h.changed _ h.position.upperPath
  · rw [List.length_append, hleaf]
    rfl
  · exact Nat.le_of_eq hpage.symm
  · omega

/-- The page map below the entry is asked for the same pages. -/
theorem below (h : SetupAt base r changed w (level + 1) owner m p t addr n) {child : Nat}
    (hmaps : PageMaps base owner' m') (hgrows : Grows r changed w owner m owner' m')
    (hchild : owner' child = some (.place r (p ++ [part addr (level + 1)]))) :
    SetupAt base r changed w level owner' m' (p ++ [part addr (level + 1)]) child addr n :=
  { h.position.below with
    maps := hmaps
    table := hchild
    marked := h.marked.grows hgrows
    changed := h.changed }

/-- The next round is asked for the pages that are left. -/
theorem next (h : SetupAt base r changed w (level + 1) owner m p t addr n) {n' : Nat}
    (hmaps : PageMaps base owner' m') (hgrows : Grows r changed w owner m owner' m')
    (hlast : part addr (level + 1) < 511)
    (hleft : n' = 0 ∨ pageOf addr + n =
      (pageNumber (p ++ [part addr (level + 1)]) + 1) * 512 ^ level + n') :
    SetupAt base r changed w (level + 1) owner' m' p t
      (clearParts (setPart addr (level + 1) (part addr (level + 1) + 1)) level) n' :=
  { h.position.next hlast with
    maps := hmaps
    table := hgrows.labels _ _ h.table
    marked := h.marked.grows hgrows
    changed := fun q hvalid hq hlo hhi => by
      rw [h.position.pageOf_next hlast] at hlo hhi
      have hlater := h.position.below.lt_stop
      exact h.changed q hvalid hq (by omega) (by omega) }

end SetupAt

/-! ## One round, one page map, all levels -/

theorem setupEntry_makesPages
    {below : Machine → (pageMap addr num4kpages : Nat) → WithError Nat × Machine}
    (hbelow : 0 < level → MakesPages base r changed w level below)
    (h : SetupAt base r changed w (level + 1) owner m p t addr n) (hn : 0 < n) :
    UpTo addr n ((pageNumber (p ++ [part addr (level + 1)]) + 1) * 512 ^ level)
        (setupEntry below (level + 1) w m t addr n).1 ∧
      ∃ owner', PageMaps base owner' (setupEntry below (level + 1) w m t addr n).2 ∧
        Grows r changed w owner m owner' (setupEntry below (level + 1) w m t addr n).2 ∧
        NewFrames r owner m owner' (setupEntry below (level + 1) w m t addr n).2 := by
  have hlength := h.length
  have hmake := h.maps.makeEntry (if level = 0 then w else true) h.table h.position.upperPath h.marked
    (h.changed_entry hn) (fun hlt => if_neg (by omega)) (fun hleaf => if_pos (by omega))
  rw [setupEntry]
  rcases hmake with heq | ⟨child, m₁, owner', heq, hmaps, hgrows, hnew, hchild⟩
  · -- no frame is left
    rw [heq]
    exact ⟨nofun, owner, h.maps, .refl .., .of_refs owner rfl⟩
  · rw [heq]
    dsimp only
    rw [if_neg (by decide)]
    by_cases hlevel : level = 0
    · -- one page is made
      subst hlevel
      rw [if_pos rfl] at hmaps hgrows hnew ⊢
      refine ⟨fun _ => .inr ?_, owner', hmaps, hgrows, hnew⟩
      rw [h.position.entry_page]
      simp only [Nat.pow_zero, Nat.div_one]
      omega
    · -- the pages below the entry are made by the call for its page map
      rw [if_neg hlevel] at hmaps hgrows hnew
      rw [if_neg (by omega)]
      have hrun := hbelow (Nat.pos_of_ne_zero hlevel) _ _ _ _ _ _
        (h.below hmaps hgrows (hchild (by omega)))
      obtain ⟨hupTo, owner'', hmaps', hgrows', hnew'⟩ := hrun
      have hnew'' := hnew.trans hgrows.marks hnew'
      split
      · rename_i herr
        exact ⟨fun hok => absurd hok herr, owner'', hmaps', hgrows.trans hgrows', hnew''⟩
      · exact ⟨hupTo, owner'', hmaps', hgrows.trans hgrows', hnew''⟩

theorem setupEntries_makesPages
    {below : Machine → (pageMap addr num4kpages : Nat) → WithError Nat × Machine}
    (hbelow : 0 < level → MakesPages base r changed w level below) (fuel : Nat)
    (h : SetupAt base r changed w (level + 1) owner m p t addr n)
    (hfuel : 512 ≤ fuel + part addr (level + 1)) :
    UpTo addr n ((pageNumber p + 1) * 512 ^ (level + 1))
        (setupEntries below (level + 1) w fuel m t addr n).1 ∧
      ∃ owner', PageMaps base owner' (setupEntries below (level + 1) w fuel m t addr n).2 ∧
        Grows r changed w owner m owner' (setupEntries below (level + 1) w fuel m t addr n).2 ∧
        NewFrames r owner m owner' (setupEntries below (level + 1) w fuel m t addr n).2 := by
  have hlength := h.length
  induction fuel generalizing owner m addr n with
  | zero =>
    -- there is always fuel left for the entries up to the last one
    have hlt := part_succ_lt addr level (by omega)
    omega
  | succ fuel ih =>
    rw [setupEntries]
    by_cases hn : 0 < n
    · rw [if_pos hn]
      obtain ⟨hupTo, owner', hmaps, hgrows, hnew⟩ := setupEntry_makesPages hbelow h hn
      have hentry := h.position.entry_page
      dsimp only
      split
      · rename_i herr
        exact ⟨fun hok => absurd hok herr, owner', hmaps, hgrows, hnew⟩
      · rename_i hok
        have hleft := hupTo (not_not.mp hok)
        split
        · -- the last entry of the page map
          rename_i hlast
          refine ⟨fun _ => ?_, owner', hmaps, hgrows, hnew⟩
          rwa [Position.stop_last hlast] at hleft
        · rename_i hlast
          have hlt := part_succ_lt addr level (by omega)
          have hnext := h.next hmaps hgrows (by omega) hleft
          have hpart := h.position.part_next (by omega)
          obtain ⟨hupTo', owner'', hmaps', hgrows', hnew'⟩ := ih hnext (by omega)
          refine ⟨fun hok => ?_, owner'', hmaps', hgrows.trans hgrows', hnew.trans hgrows.marks hnew'⟩
          refine (hupTo' hok).imp_right fun hdone => ?_
          rcases hleft with hzero | hleft
          · -- nothing was left, so that the next round was not at the end of the page map
            have hstop := hnext.position.lt_stop
            rw [hzero, Nat.add_zero] at hdone
            exact absurd (hdone ▸ hstop) (Nat.not_lt.mpr (Nat.le_add_right ..))
          · have hfirst := pageOf_next addr level (by omega) (by omega)
            rw [hfirst, ← h.position.entry_page, ← hleft] at hdone
            exact hdone
    · rw [if_neg hn]
      refine ⟨fun _ => .inl ?_, owner, h.maps, .refl .., .of_refs owner rfl⟩
      show n = 0
      omega

theorem setupPageMap_makesPages (level : Nat) :
    0 < level → MakesPages base r changed w level (setupPageMap w level) := by
  induction level with
  | zero => exact fun h => absurd h (Nat.lt_irrefl 0)
  | succ level ih => exact fun _ _ _ _ _ _ _ h => setupEntries_makesPages ih 512 h (Nat.le_add_right ..)

/-- `SetupPageMaps` for a root of the forest makes pages only among those it is asked for. -/
theorem setupPageMaps_grows (h : PageMaps base owner m) (hr : owner r = some (.place r []))
    (hupper : 256 ≤ pageOf addr / 512 ^ 3) (hmarked : PageMaps.Marked r changed w owner m)
    (hchanged : ∀ q, UpperPath q → q.length = 4 → pageOf addr ≤ pageNumber q →
      pageNumber q < pageOf addr + n → changed q) :
    ∃ owner', PageMaps base owner' (m.setupPageMaps r addr n w).2 ∧
      Grows r changed w owner m owner' (m.setupPageMaps r addr n w).2 ∧
      NewFrames r owner m owner' (m.setupPageMaps r addr n w).2 := by
  have hat : SetupAt base r changed w 4 owner m [] r addr n := { Position.root hupper with
    maps := h
    table := hr
    marked := hmarked
    changed := hchanged }
  exact (setupPageMap_makesPages 4 (by decide) _ _ _ _ _ _ hat).2

end MikanSaos
