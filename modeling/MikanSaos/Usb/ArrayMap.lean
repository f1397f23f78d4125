import Mathlib.Data.List.Basic

/-!
# ArrayMap — a table with a fixed number of places

`Put` takes the first free place and drops the entry when there is none, `Get` finds the first entry of a key
and `Delete` frees its place.  A key may have several entries.
-/

namespace MikanSaos

/-- `table_`: a place without a key is free. -/
abbrev ArrayMap (K V : Type) := List (Option K × V)

namespace ArrayMap

variable {K V : Type} {table : ArrayMap K V} {key other : K} {value v : V}

def put : ArrayMap K V → K → V → ArrayMap K V
  | [], _, _ => []
  | (opt, v) :: table, key, value =>
    if opt = none then (some key, value) :: table else (opt, v) :: put table key value

theorem put_free : put ((none, v) :: table) key value = (some key, value) :: table := if_pos rfl

theorem put_taken : put ((some other, v) :: table) key value = (some other, v) :: put table key value :=
  if_neg (Option.some_ne_none other)

/-- A place is free. -/
def HasRoom (table : ArrayMap K V) : Prop := ∃ v, (none, v) ∈ table

/-- The table has an entry of the key. -/
def Holds (table : ArrayMap K V) (key : K) : Prop := ∃ value, (some key, value) ∈ table

/-- Induction on the places. -/
@[elab_as_elim]
theorem places {motive : ArrayMap K V → Prop} (nil : motive [])
    (free : ∀ v table, motive table → motive ((none, v) :: table))
    (taken : ∀ other v table, motive table → motive ((some other, v) :: table)) (table : ArrayMap K V) :
    motive table := by
  induction table with
  | nil => exact nil
  | cons entry table ih =>
    obtain ⟨opt, v⟩ := entry
    cases opt with
    | none => exact free v table ih
    | some other => exact taken other v table ih

theorem not_hasRoom_nil : ¬ HasRoom ([] : ArrayMap K V) := by
  rintro ⟨v, hmem⟩
  cases hmem

theorem hasRoom_taken : HasRoom ((some other, v) :: table) ↔ HasRoom table := by
  constructor
  · rintro ⟨w, hmem⟩
    rcases List.mem_cons.mp hmem with heq | hmem
    · cases heq
    · exact ⟨w, hmem⟩
  · rintro ⟨w, hmem⟩
    exact ⟨w, List.mem_cons_of_mem _ hmem⟩

/-- A free place is no entry of a key. -/
theorem mem_free {w : V} : (some other, v) ∈ (none, w) :: table ↔ (some other, v) ∈ table := by
  constructor
  · intro h
    rcases List.mem_cons.mp h with heq | hmem
    · cases heq
    · exact hmem
  · exact List.mem_cons_of_mem _

/-- What is in the table stays there. -/
theorem mem_put_of_mem (h : (some other, v) ∈ table) : (some other, v) ∈ put table key value := by
  induction table using places with
  | nil => cases h
  | free w table ih =>
    rw [put_free]
    exact List.mem_cons_of_mem _ (mem_free.mp h)
  | taken first w table ih =>
    rw [put_taken]
    rcases List.mem_cons.mp h with heq | hmem
    · exact heq ▸ List.mem_cons_self
    · exact List.mem_cons_of_mem _ (ih hmem)

theorem mem_put_self (h : HasRoom table) : (some key, value) ∈ put table key value := by
  induction table using places with
  | nil => exact absurd h not_hasRoom_nil
  | free w table ih =>
    rw [put_free]
    exact List.mem_cons_self
  | taken first w table ih =>
    rw [put_taken]
    exact List.mem_cons_of_mem _ (ih (hasRoom_taken.mp h))

theorem mem_of_mem_put (h : (some other, v) ∈ put table key value) :
    (some other, v) ∈ table ∨ (other = key ∧ v = value) := by
  induction table using places with
  | nil => exact .inl h
  | free w table ih =>
    rw [put_free] at h
    rcases List.mem_cons.mp h with heq | hmem
    · cases heq
      exact .inr ⟨rfl, rfl⟩
    · exact .inl (List.mem_cons_of_mem _ hmem)
  | taken first w table ih =>
    rw [put_taken] at h
    rcases List.mem_cons.mp h with heq | hmem
    · exact .inl (heq ▸ List.mem_cons_self)
    · exact (ih hmem).imp_left (List.mem_cons_of_mem _)

variable [DecidableEq K]

def get : ArrayMap K V → K → Option V
  | [], _ => none
  | (opt, value) :: table, key => if opt = some key then some value else get table key

def delete : ArrayMap K V → K → ArrayMap K V
  | [], _ => []
  | (opt, v) :: table, key => if opt = some key then (none, v) :: table else (opt, v) :: delete table key

theorem get_free : get ((none, v) :: table) key = get table key := if_neg (Option.some_ne_none key).symm

theorem get_same : get ((some key, v) :: table) key = some v := if_pos rfl

theorem get_other (h : other ≠ key) : get ((some other, v) :: table) key = get table key :=
  if_neg fun heq => h (Option.some.inj heq)

theorem delete_free : delete ((none, v) :: table) key = (none, v) :: delete table key :=
  if_neg (Option.some_ne_none key).symm

theorem delete_same : delete ((some key, v) :: table) key = (none, v) :: table := if_pos rfl

theorem delete_other (h : other ≠ key) :
    delete ((some other, v) :: table) key = (some other, v) :: delete table key :=
  if_neg fun heq => h (Option.some.inj heq)

theorem mem_of_get (h : get table key = some value) : (some key, value) ∈ table := by
  induction table using places with
  | nil => cases h
  | free v table ih =>
    rw [get_free] at h
    exact List.mem_cons_of_mem _ (ih h)
  | taken first v table ih =>
    by_cases hfirst : first = key
    · rw [hfirst, get_same] at h
      cases h
      exact hfirst ▸ List.mem_cons_self
    · rw [get_other hfirst] at h
      exact List.mem_cons_of_mem _ (ih h)

theorem Holds.get (h : Holds table key) : ∃ value, get table key = some value := by
  obtain ⟨w, hmem⟩ := h
  induction table using places with
  | nil => cases hmem
  | free v table ih =>
    rw [get_free]
    exact ih (mem_free.mp hmem)
  | taken first v table ih =>
    by_cases hfirst : first = key
    · rw [hfirst]
      exact ⟨v, get_same⟩
    · rw [get_other hfirst]
      rcases List.mem_cons.mp hmem with heq | hmem
      · cases heq
        exact absurd rfl hfirst
      · exact ih hmem

theorem mem_of_mem_delete (h : (some other, v) ∈ delete table key) : (some other, v) ∈ table := by
  induction table using places with
  | nil => cases h
  | free w table ih =>
    rw [delete_free] at h
    exact List.mem_cons_of_mem _ (ih (mem_free.mp h))
  | taken first w table ih =>
    by_cases hfirst : first = key
    · rw [hfirst, delete_same] at h
      exact List.mem_cons_of_mem _ (mem_free.mp h)
    · rw [delete_other hfirst] at h
      rcases List.mem_cons.mp h with heq | hmem
      · exact heq ▸ List.mem_cons_self
      · exact List.mem_cons_of_mem _ (ih hmem)

/-- The entries of other keys are kept. -/
theorem mem_delete_of_ne (h : (some other, v) ∈ table) (hne : other ≠ key) :
    (some other, v) ∈ delete table key := by
  induction table using places with
  | nil => cases h
  | free w table ih =>
    rw [delete_free]
    exact List.mem_cons_of_mem _ (ih (mem_free.mp h))
  | taken first w table ih =>
    by_cases hfirst : first = key
    · rw [hfirst, delete_same]
      rcases List.mem_cons.mp h with heq | hmem
      · cases heq
        exact absurd hfirst hne
      · exact List.mem_cons_of_mem _ hmem
    · rw [delete_other hfirst]
      rcases List.mem_cons.mp h with heq | hmem
      · exact heq ▸ List.mem_cons_self
      · exact List.mem_cons_of_mem _ (ih hmem)

end ArrayMap

end MikanSaos
