import MikanSaos.Paging.CleanPages
import MikanSaos.Paging.SetupPages

/-!
# Walks — the pages of a root, and what is seen from the others

The walk of the processor through the page maps of a root follows the labels.  `Keeps` says that an operation
leaves the page maps of some roots and their pages alone; what is read there is then the same.
-/

open Reasoning

namespace MikanSaos

open Machine LinearAddress4Level

variable {base : Nat → Prop} {owner owner' owner'' : Labels} {m m' m'' : Machine} {r t i f g vaddr : Nat}
  {p : List Nat} {changed : List Nat → Prop} {w : Bool} {roots roots' : Nat → Prop}

/-! ## Addresses of the upper half -/

def Upper (vaddr : Nat) : Prop := kUpperHalf ≤ vaddr ∧ vaddr < 2 ^ 64

/-- The indices on the way to the page map of the last level. -/
def tablePath (vaddr : Nat) : List Nat := [part vaddr 4, part vaddr 3, part vaddr 2]

/-- The page map of the last level, if the entries on the way are there. -/
def Machine.leafTable (m : Machine) (cr3 vaddr : Nat) : Nat :=
  (m.tables (m.tables (m.tables cr3 (part vaddr 4)).addr (part vaddr 3)).addr (part vaddr 2)).addr

theorem Upper.part_lt (h : Upper vaddr) : 256 ≤ part vaddr 4 ∧ part vaddr 4 < 512 := by
  unfold Upper kUpperHalf at h
  simp only [part]
  omega

theorem Upper.upperPath (h : Upper vaddr) : UpperPath (tablePath vaddr ++ [part vaddr 1]) := by
  refine ⟨le_rfl, ?_, ?_⟩
  · intro i hi
    simp only [tablePath, List.cons_append, List.nil_append, List.mem_cons, List.not_mem_nil, or_false] at hi
    rcases hi with rfl | rfl | rfl | rfl
    · exact h.part_lt.2
    · exact Nat.mod_lt _ (by decide)
    · exact Nat.mod_lt _ (by decide)
    · exact Nat.mod_lt _ (by decide)
  · intro i hi
    cases hi
    exact h.part_lt.1

/-- The way there stays in the upper half. -/
theorem Upper.prefix {q : List Nat} (h : Upper vaddr) (hq : p ++ q = tablePath vaddr ++ [part vaddr 1]) (hne : p ≠ []) :
    UpperPath p := by
  have hupper := h.upperPath
  rw [← hq] at hupper
  exact hupper.prefix.resolve_right hne

theorem pageNumber_tablePath (vaddr : Nat) : pageNumber (tablePath vaddr ++ [part vaddr 1]) = pageOf vaddr := by
  have h0 := pageOf_part vaddr 0 (by decide)
  have h1 := pageOf_part vaddr 1 (by decide)
  have h2 := pageOf_part vaddr 2 (by decide)
  have h3 := pageOf_part vaddr 3 (by decide)
  rw [Nat.div_eq_of_lt (pageOf_lt vaddr)] at h3
  show (((0 * 512 + part vaddr 4) * 512 + part vaddr 3) * 512 + part vaddr 2) * 512 + part vaddr 1 = pageOf vaddr
  rw [Nat.pow_zero, Nat.div_one] at h0
  rw [h0, h1, h2, h3]

theorem Upper.pageOf_le (h : Upper vaddr) : 256 ≤ pageOf vaddr / 512 ^ 3 := by
  unfold Upper kUpperHalf at h
  unfold pageOf
  omega

theorem part_eq {v : Nat} (h : v / 4096 = vaddr / 4096) : tablePath v ++ [part v 1] = tablePath vaddr ++ [part vaddr 1] := by
  have h1 : v / 2 ^ 12 = vaddr / 2 ^ 12 := h
  have h2 : v / 2 ^ 21 = vaddr / 2 ^ 21 := by omega
  have h3 : v / 2 ^ 30 = vaddr / 2 ^ 30 := by omega
  have h4 : v / 2 ^ 39 = vaddr / 2 ^ 39 := by omega
  simp only [tablePath, part, h1, h2, h3, h4]

/-- The pages of the upper half are numbered in order. -/
theorem Upper.pageOf_add (h : Upper vaddr) : pageOf vaddr + (2 ^ 52 - 2 ^ 36) = vaddr / 4096 := by
  unfold Upper kUpperHalf at h
  unfold pageOf
  omega

/-- Two paths to the last level with the same page number are the same. -/
theorem pageNumber_inj {p q : List Nat} (hlength : p.length = q.length) (hp : ∀ i ∈ p, i < 512) (hq : ∀ i ∈ q, i < 512)
    (h : pageNumber p = pageNumber q) : p = q := by
  induction p using List.reverseRecOn generalizing q with
  | nil => exact (List.length_eq_zero_iff.mp hlength.symm).symm
  | append_singleton p i ih =>
    rcases List.eq_nil_or_concat q with rfl | ⟨q, j, rfl⟩
    · simp at hlength
    · rw [List.concat_eq_append] at *
      rw [pageNumber_append, pageNumber_append] at h
      have hi := hp i (by simp)
      have hj := hq j (by simp)
      have hpq : p = q := by
        apply ih
        · simpa using hlength
        · exact fun k hk => hp k (List.mem_append_left _ hk)
        · exact fun k hk => hq k (List.mem_append_left _ hk)
        · omega
      rw [hpq, show i = j by omega]

/-! ## The walk -/

namespace PageMaps

/-- A page map below another one belongs to the same root. -/
theorem child (h : PageMaps base owner m) (ht : owner t = some (.place r p)) (hvalid : UpperPath (p ++ [i]))
    (hlength : p.length < 3) (hpresent : (m.tables t i).present = true) :
    (m.tables t i).writable = true ∧ owner (m.tables t i).addr = some (.place r (p ++ [i])) := by
  have href := Machine.refs_of_present hpresent
  cases hown : (m.tables t i).writable with
  | true =>
    rw [hown] at href
    exact ⟨rfl, h.forest.owning t r p i _ ht hvalid href⟩
  | false =>
    -- only pages are shared
    rw [hown] at href
    have hshare := (h.forest.sharing t r p i _ ht hvalid href).1
    rw [LeafPath, List.length_append, List.length_singleton] at hshare
    omega

theorem not_below_absent (h : PageMaps base owner m) (ht : owner t = some (.place r p))
    (habsent : ¬ (m.tables t i).present = true) {q : List Nat} (hf : owner f = some (.place r (p ++ i :: q))) : False := by
  refine h.not_below ht (i := i) ?_ hf ?_
  · rw [Machine.refs_of_absent (Bool.eq_false_iff.mpr habsent)]
    exact fun _ => (Option.some_ne_none _).symm
  · exact ⟨q, (List.append_cons p i q).symm⟩

/-- A walk in the upper half ends at an entry of the last level, or there is no page. -/
theorem walk_cases (h : PageMaps base owner m) (hr : owner r = some (.place r [])) (hv : Upper vaddr) :
    (owner (m.leafTable r vaddr) = some (.place r (tablePath vaddr)) ∧
      (m.tables (m.leafTable r vaddr) (part vaddr 1)).present = true ∧
      m.walk r vaddr = some (m.tables (m.leafTable r vaddr) (part vaddr 1))) ∨
    m.walk r vaddr = none ∧
      ∀ t, owner t = some (.place r (tablePath vaddr)) → (m.tables t (part vaddr 1)).present = false := by
  have hvalid4 : UpperPath [part vaddr 4] := hv.prefix (q := [part vaddr 3, part vaddr 2, part vaddr 1]) rfl (by simp)
  have hvalid3 : UpperPath [part vaddr 4, part vaddr 3] := hv.prefix (q := [part vaddr 2, part vaddr 1]) rfl (by simp)
  have hvalid2 : UpperPath (tablePath vaddr) := hv.prefix (q := [part vaddr 1]) rfl (by simp [tablePath])
  unfold walk
  dsimp only
  by_cases h4 : (m.tables r (part vaddr 4)).present = true
  swap
  · exact .inr ⟨by simp [h4], fun t ht => (h.not_below_absent hr h4 ht).elim⟩
  obtain ⟨hw4, ht4⟩ := h.child hr hvalid4 (by simp) h4
  by_cases h3 : (m.tables (m.tables r (part vaddr 4)).addr (part vaddr 3)).present = true
  swap
  · exact .inr ⟨by simp [h3], fun t ht => (h.not_below_absent ht4 h3 ht).elim⟩
  obtain ⟨hw3, ht3⟩ := h.child ht4 hvalid3 (by simp) h3
  by_cases h2 : (m.tables (m.tables (m.tables r (part vaddr 4)).addr (part vaddr 3)).addr (part vaddr 2)).present = true
  swap
  · exact .inr ⟨by simp [h2], fun t ht => (h.not_below_absent ht3 h2 ht).elim⟩
  obtain ⟨hw2, ht2⟩ := h.child ht3 hvalid2 (by simp) h2
  have hu4 := (h.plain _ _ _ _ hr hvalid4).2 h4
  have hu3 := (h.plain _ _ _ _ ht4 hvalid3).2 h3
  obtain ⟨hhuge, hu2⟩ := h.plain _ _ _ _ ht3 hvalid2
  rw [if_pos ⟨h4, h3, h2⟩, hhuge, if_neg (by decide), hw4, hw3, hw2, hu4, hu3, hu2 h2]
  by_cases h1 : (m.tables (m.leafTable r vaddr) (part vaddr 1)).present = true
  · exact .inl ⟨ht2, h1, if_pos h1⟩
  · refine .inr ⟨if_neg h1, fun t ht => ?_⟩
    rw [h.forest.place_inj ht ht2]
    exact Bool.eq_false_iff.mpr h1

/-- The walk looks at the page maps of the root only. -/
theorem walk_congr (h : PageMaps base owner m) (hr : owner r = some (.place r [])) (hv : Upper vaddr)
    (htables : ∀ t p, owner t = some (.place r p) → m'.tables t = m.tables t) :
    m'.walk r vaddr = m.walk r vaddr ∧
      (m.walk r vaddr ≠ none → m'.leafTable r vaddr = m.leafTable r vaddr) := by
  have hvalid4 : UpperPath [part vaddr 4] := hv.prefix (q := [part vaddr 3, part vaddr 2, part vaddr 1]) rfl (by simp)
  have hvalid3 : UpperPath [part vaddr 4, part vaddr 3] := hv.prefix (q := [part vaddr 2, part vaddr 1]) rfl (by simp)
  have hvalid2 : UpperPath (tablePath vaddr) := hv.prefix (q := [part vaddr 1]) rfl (by simp [tablePath])
  unfold walk leafTable
  dsimp only
  rw [htables r [] hr]
  by_cases h4 : (m.tables r (part vaddr 4)).present = true
  swap
  · simp [h4]
  have ht4 := (h.child hr hvalid4 (by simp) h4).2
  rw [htables _ _ ht4]
  by_cases h3 : (m.tables (m.tables r (part vaddr 4)).addr (part vaddr 3)).present = true
  swap
  · simp [h3]
  have ht3 := (h.child ht4 hvalid3 (by simp) h3).2
  rw [htables _ _ ht3]
  by_cases h2 : (m.tables (m.tables (m.tables r (part vaddr 4)).addr (part vaddr 3)).addr (part vaddr 2)).present = true
  swap
  · simp [h2]
  rw [htables _ _ (h.child ht3 hvalid2 (by simp) h2).2]
  exact ⟨rfl, fun _ => rfl⟩

end PageMaps

end MikanSaos
