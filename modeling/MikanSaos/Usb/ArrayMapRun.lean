import MikanSaos.Reasoning.Reach
import MikanSaos.Usb.ArrayMap
import Mathlib.Data.List.Nodup
import Mathlib.Data.List.Perm.Basic
import Mathlib.Logic.Function.Basic

/-!
# ArrayMapRun — when the table is a map

`Put` does not look for the key.  A key that is put again gets a second entry, in the first free place, wherever
that is; `Get` finds the entry that stands in front, and `Delete` removes only that one.
-/

namespace MikanSaos

open Reasoning

namespace ArrayMap

variable {K V : Type} {table : ArrayMap K V} {key other : K} {value v : V}

/-- The keys of the entries, in the order of their places. -/
def keys (table : ArrayMap K V) : List K := table.filterMap Prod.fst

/-- There is a free place with no entry of the key in front of it. -/
def FreeInFront (table : ArrayMap K V) (key : K) : Prop :=
  ∃ front v back, table = front ++ (none, v) :: back ∧ ∀ entry ∈ front, entry.1 ≠ some key

theorem mem_keys : key ∈ keys table ↔ Holds table key := by
  unfold keys Holds
  rw [List.mem_filterMap]
  constructor
  · intro h
    obtain ⟨⟨opt, value⟩, hmem, hkey⟩ := h
    cases hkey
    exact ⟨value, hmem⟩
  · intro h
    obtain ⟨value, hmem⟩ := h
    exact ⟨_, hmem, rfl⟩

theorem keys_free (table : ArrayMap K V) (v : V) : keys ((none, v) :: table) = keys table := rfl

theorem keys_taken (table : ArrayMap K V) (other : K) (v : V) :
    keys ((some other, v) :: table) = other :: keys table := rfl

theorem length_put : (put table key value).length = table.length := by
  induction table using places with
  | nil => rfl
  | free v table ih => rfl
  | taken other v table ih => rw [put_taken, List.length_cons, List.length_cons, ih]

theorem not_freeInFront_nil : ¬ FreeInFront ([] : ArrayMap K V) key := by
  intro h
  obtain ⟨front, v, back, heq, -⟩ := h
  cases front with
  | nil => cases heq
  | cons => cases heq

theorem freeInFront_free : FreeInFront ((none, v) :: table) key := ⟨[], v, table, rfl, fun _ h => nomatch h⟩

theorem freeInFront_taken : FreeInFront ((some other, v) :: table) key ↔ other ≠ key ∧ FreeInFront table key := by
  constructor
  · intro h
    obtain ⟨front, w, back, heq, hfront⟩ := h
    cases front with
    | nil => cases heq
    | cons entry front =>
      cases heq
      have hne := hfront _ List.mem_cons_self
      refine ⟨fun h => hne (congrArg some h), front, w, back, rfl, ?_⟩
      exact fun entry hmem => hfront entry (List.mem_cons_of_mem _ hmem)
  · intro h
    obtain ⟨hne, front, w, back, heq, hfront⟩ := h
    refine ⟨(some other, v) :: front, w, back, by rw [heq]; rfl, ?_⟩
    intro entry hmem
    rcases List.mem_cons.mp hmem with rfl | hmem
    · exact fun h => hne (Option.some.inj h)
    · exact hfront entry hmem

/-- Where there is no free place at all, the entry is dropped. -/
theorem keys_put_perm (h : FreeInFront table key) : List.Perm (keys (put table key value)) (key :: keys table) := by
  induction table using places with
  | nil => exact absurd h not_freeInFront_nil
  | free v table ih =>
    rw [put_free]
    rfl
  | taken other v table ih =>
    rw [put_taken, keys_taken, keys_taken]
    exact ((ih (freeInFront_taken.mp h).2).cons other).trans (List.Perm.swap ..)

/-- A key without an entry has no entry in front of a free place. -/
theorem freeInFront_of_room (h : HasRoom table) (hkey : key ∉ keys table) : FreeInFront table key := by
  induction table using places with
  | nil => exact absurd h not_hasRoom_nil
  | free v table ih => exact freeInFront_free
  | taken other v table ih =>
    rw [keys_taken, List.mem_cons, not_or] at hkey
    exact freeInFront_taken.mpr ⟨Ne.symm hkey.1, ih (hasRoom_taken.mp h) hkey.2⟩

/-- Without a free place every place has a key. -/
theorem length_keys_of_full (h : ¬ HasRoom table) : (keys table).length = table.length := by
  induction table using places with
  | nil => rfl
  | free v table ih => exact absurd ⟨v, List.mem_cons_self⟩ h
  | taken other v table ih =>
    have hrest : ¬ HasRoom table := fun hroom => h (hasRoom_taken.mpr hroom)
    rw [keys_taken, List.length_cons, List.length_cons, ih hrest]

variable [DecidableEq K]

theorem get_eq_none_iff : get table key = none ↔ key ∉ keys table := by
  rw [mem_keys]
  constructor
  · intro h hholds
    obtain ⟨value, hget⟩ := hholds.get
    rw [h] at hget
    cases hget
  · intro h
    by_contra hne
    obtain ⟨value, hget⟩ := Option.ne_none_iff_exists'.mp hne
    exact h ⟨value, mem_of_get hget⟩

/-- Another key is found as before. -/
theorem get_put_of_ne (h : other ≠ key) : get (put table key value) other = get table other := by
  induction table using places with
  | nil => rfl
  | free v table ih => rw [put_free, get_other (Ne.symm h), get_free]
  | taken first v table ih =>
    rw [put_taken]
    by_cases hfirst : first = other
    · rw [hfirst, get_same, get_same]
    · rw [get_other hfirst, get_other hfirst, ih]

theorem get_put_of_free (h : FreeInFront table key) : get (put table key value) key = some value := by
  induction table using places with
  | nil => exact absurd h not_freeInFront_nil
  | free v table ih => rw [put_free, get_same]
  | taken first v table ih =>
    obtain ⟨hne, hrest⟩ := freeInFront_taken.mp h
    rw [put_taken, get_other hne, ih hrest]

/-- The entry is dropped, or stands behind an older one of the key. -/
theorem get_put_of_not_free (h : ¬ FreeInFront table key) : get (put table key value) key = get table key := by
  induction table using places with
  | nil => rfl
  | free v table ih => exact absurd freeInFront_free h
  | taken first v table ih =>
    rw [put_taken]
    by_cases hfirst : first = key
    · rw [hfirst, get_same, get_same]
    · have hrest : ¬ FreeInFront table key := fun hfree => h (freeInFront_taken.mpr ⟨hfirst, hfree⟩)
      rw [get_other hfirst, get_other hfirst, ih hrest]

theorem length_delete : (delete table key).length = table.length := by
  induction table using places with
  | nil => rfl
  | free v table ih => rw [delete_free, List.length_cons, List.length_cons, ih]
  | taken other v table ih =>
    by_cases hother : other = key
    · rw [hother, delete_same]
      rfl
    · rw [delete_other hother, List.length_cons, List.length_cons, ih]

/-- One entry of the key is removed. -/
theorem keys_delete : keys (delete table key) = (keys table).erase key := by
  induction table using places with
  | nil => rfl
  | free v table ih => rw [delete_free, keys_free, keys_free, ih]
  | taken other v table ih =>
    by_cases hother : other = key
    · rw [hother, delete_same, keys_free, keys_taken, List.erase_cons_head]
    · rw [delete_other hother, keys_taken, keys_taken, List.erase_cons_tail (by simpa using hother), ih]

theorem get_delete_of_ne (h : other ≠ key) : get (delete table key) other = get table other := by
  induction table using places with
  | nil => rfl
  | free v table ih => rw [delete_free, get_free, get_free, ih]
  | taken first v table ih =>
    by_cases hfirst : first = key
    · rw [hfirst, delete_same, get_free, get_other (Ne.symm h)]
    · rw [delete_other hfirst]
      by_cases hfound : first = other
      · rw [hfound, get_same, get_same]
      · rw [get_other hfound, get_other hfound, ih]

theorem get_delete_eq_none_iff : get (delete table key) key = none ↔ (keys table).count key ≤ 1 := by
  rw [get_eq_none_iff, keys_delete, ← List.count_eq_zero, List.count_erase_self]
  omega

end ArrayMap

/-! ## Runs -/

inductive MapCall (K V : Type) where
  | put (key : K) (value : V)
  | delete (key : K)

/-- The table, and for each key the value of the last `Put` that no `Delete` has followed. -/
structure MapRun (K V : Type) where
  table : ArrayMap K V
  latest : K → Option V

namespace MapRun

variable {K V : Type} {s : MapRun K V} {calls : List (MapCall K V)} {key other : K}

/-- An empty table; `v` is what a place holds at first. -/
def start (K : Type) {V : Type} (capacity : Nat) (v : V) : MapRun K V :=
  ⟨List.replicate capacity (none, v), fun _ => none⟩

/-- At most so many keys are present. -/
def AtMost (s : MapRun K V) (capacity : Nat) : Prop :=
  ∀ keys : List K, keys.Nodup → (∀ key ∈ keys, s.latest key ≠ none) → keys.length ≤ capacity

/-- No key is put that is present. -/
def Fresh (s : MapRun K V) : MapCall K V → Prop
  | .put key _ => s.latest key = none
  | .delete _ => True

theorem keys_start (capacity : Nat) (v : V) : (start K capacity v).table.keys = [] := by
  unfold start ArrayMap.keys
  rw [List.filterMap_eq_nil_iff]
  intro entry hmem
  rw [List.eq_of_mem_replicate hmem]

variable [DecidableEq K]

def call (s : MapRun K V) : MapCall K V → MapRun K V
  | .put key value => ⟨s.table.put key value, Function.update s.latest key (some value)⟩
  | .delete key => ⟨s.table.delete key, Function.update s.latest key none⟩

theorem latest_put_self {value : V} : (s.call (.put key value)).latest key = some value := Function.update_self ..

theorem latest_put_of_ne {value : V} (h : other ≠ key) : (s.call (.put key value)).latest other = s.latest other :=
  Function.update_of_ne h ..

theorem latest_delete_self : (s.call (.delete key)).latest key = none := Function.update_self ..

theorem latest_delete_of_ne (h : other ≠ key) : (s.call (.delete key)).latest other = s.latest other :=
  Function.update_of_ne h ..

/-- `Get` returns the value of the last `Put`. -/
def Agrees (s : MapRun K V) : Prop := ∀ key, s.table.get key = s.latest key

/-- A `Put` comes in front of the other entries of its key, or does not change the value; a `Delete` finds one entry
at most. -/
def Allowed (s : MapRun K V) : MapCall K V → Prop
  | .put key value => s.table.FreeInFront key ∨ s.latest key = some value
  | .delete key => s.table.keys.count key ≤ 1

/-- One call.  Only the entries of its own key matter. -/
theorem Agrees.call_iff (h : s.Agrees) (c : MapCall K V) : (s.call c).Agrees ↔ s.Allowed c := by
  cases c with
  | put key value =>
    constructor
    · intro hafter
      -- a `Put` that is not found again has left the value of its key as it was
      by_cases hfree : s.table.FreeInFront key
      · exact .inl hfree
      · right
        rw [← h key, ← ArrayMap.get_put_of_not_free hfree]
        exact (hafter key).trans latest_put_self
    · intro hallowed other
      by_cases hother : other = key
      · rw [hother, latest_put_self]
        by_cases hfree : s.table.FreeInFront key
        · exact ArrayMap.get_put_of_free hfree
        · -- the value that is found is the old one
          have hvalue := hallowed.resolve_left hfree
          exact (ArrayMap.get_put_of_not_free hfree).trans ((h key).trans hvalue)
      · rw [latest_put_of_ne hother]
        exact (ArrayMap.get_put_of_ne hother).trans (h other)
  | delete key =>
    constructor
    · intro hafter
      exact ArrayMap.get_delete_eq_none_iff.mp ((hafter key).trans latest_delete_self)
    · intro hallowed other
      by_cases hother : other = key
      · rw [hother, latest_delete_self]
        exact ArrayMap.get_delete_eq_none_iff.mpr hallowed
      · rw [latest_delete_of_ne hother]
        exact (ArrayMap.get_delete_of_ne hother).trans (h other)

theorem start_agrees (capacity : Nat) (v : V) : (start K capacity v).Agrees := by
  intro key
  apply ArrayMap.get_eq_none_iff.mpr
  rw [keys_start]
  exact List.not_mem_nil

/-! ## Keys that are not put again -/

/-- Each key has one entry at most. -/
structure Single (s : MapRun K V) (capacity : Nat) : Prop where
  agrees : s.Agrees
  nodup : s.table.keys.Nodup
  length : s.table.length = capacity

theorem Agrees.latest_ne_none (h : s.Agrees) : ∀ key ∈ s.table.keys, s.latest key ≠ none := by
  intro key hmem hnone
  rw [← h key] at hnone
  exact ArrayMap.get_eq_none_iff.mp hnone hmem

/-- There is room for a key that is not present. -/
theorem Single.freeInFront {capacity : Nat} (h : s.Single capacity) {value : V} (hfresh : s.latest key = none)
    (hafter : (s.call (.put key value)).AtMost capacity) : s.table.FreeInFront key := by
  have hout : key ∉ s.table.keys := ArrayMap.get_eq_none_iff.mp ((h.agrees key).trans hfresh)
  refine ArrayMap.freeInFront_of_room ?_ hout
  -- a full table has a key in every place, and the new one would be one more than there are places
  by_contra hfull
  have hmore := hafter (key :: s.table.keys) (List.nodup_cons.mpr ⟨hout, h.nodup⟩) ?_
  · rw [List.length_cons, ArrayMap.length_keys_of_full hfull, h.length] at hmore
    omega
  · intro other hmem
    rcases List.mem_cons.mp hmem with rfl | hmem
    · rw [latest_put_self]
      exact Option.some_ne_none value
    · -- a key of the table is present, and is another one
      have hne : other ≠ key := fun heq => hout (heq ▸ hmem)
      rw [latest_put_of_ne hne]
      exact h.agrees.latest_ne_none other hmem

theorem Single.call {capacity : Nat} (h : s.Single capacity) {c : MapCall K V} (hfresh : s.Fresh c)
    (hafter : (s.call c).AtMost capacity) : (s.call c).Single capacity := by
  cases c with
  | put key value =>
    have hfree := h.freeInFront hfresh hafter
    have hout : key ∉ s.table.keys := ArrayMap.get_eq_none_iff.mp ((h.agrees key).trans hfresh)
    refine ⟨(h.agrees.call_iff _).mpr (.inl hfree), ?_, ArrayMap.length_put.trans h.length⟩
    exact (ArrayMap.keys_put_perm hfree).nodup_iff.mpr (List.nodup_cons.mpr ⟨hout, h.nodup⟩)
  | delete key =>
    refine ⟨(h.agrees.call_iff _).mpr (List.nodup_iff_count_le_one.mp h.nodup key), ?_,
      ArrayMap.length_delete.trans h.length⟩
    show (s.table.delete key).keys.Nodup
    rw [ArrayMap.keys_delete]
    exact h.nodup.erase key

/-- As long as no key is put that is present, and not more keys than places are, the table is a map. -/
theorem agrees_of_fresh {capacity : Nat} (v : V)
    (hmost : ∀ pre, pre <+: calls → (pre.foldl call (start K capacity v)).AtMost capacity)
    (hfresh : ∀ pre c, pre ++ [c] <+: calls → (pre.foldl call (start K capacity v)).Fresh c) :
    ∀ pre, pre <+: calls → (pre.foldl call (start K capacity v)).Agrees := by
  have hsingle : ∀ pre, pre <+: calls → (pre.foldl call (start K capacity v)).Single capacity := by
    intro pre
    -- the calls are added at the end: `Single` holds before the last one
    induction pre using List.reverseRecOn with
    | nil =>
      refine fun _ => ⟨start_agrees capacity v, ?_, List.length_replicate⟩
      show (start K capacity v).table.keys.Nodup
      rw [keys_start]
      exact List.nodup_nil
    | append_singleton pre c ih =>
      intro hpre
      have hbefore := ih ((List.prefix_append pre [c]).trans hpre)
      have hafter := hmost (pre ++ [c]) hpre
      rw [List.foldl_append] at hafter ⊢
      exact hbefore.call (hfresh pre c hpre) hafter
  exact fun pre hpre => (hsingle pre hpre).agrees

end MapRun

open MapRun

/-- **When the table is a map.**  In a run of any calls on an empty table: `Get` returns the value of the last `Put`
after every call exactly when each call was allowed. -/
theorem arrayMap_agrees_iff {K V : Type} [DecidableEq K] (capacity : Nat) (v : V) (calls : List (MapCall K V)) :
    (∀ pre, pre <+: calls → (pre.foldl MapRun.call (start K capacity v)).Agrees) ↔
      ∀ pre c, pre ++ [c] <+: calls → (pre.foldl MapRun.call (start K capacity v)).Allowed c :=
  forall_prefix_iff (start_agrees capacity v) fun _ c hs => hs.call_iff c

/-- One key is put twice into a table of four places: `Get` returns the first value. -/
theorem arrayMap_put_twice :
    (∀ pre, pre <+: [MapCall.put 1 10, .put 1 20] → (pre.foldl MapRun.call (start Nat 4 0)).AtMost 4) ∧
      ([MapCall.put 1 10, .put 1 20].foldl MapRun.call (start Nat 4 0)).table.get 1 = some 10 ∧
      ¬ ∀ pre, pre <+: [MapCall.put 1 10, .put 1 20] → (pre.foldl MapRun.call (start Nat 4 0)).Agrees := by
  refine ⟨?_, by decide, ?_⟩
  · intro pre hpre keys hnodup hpresent
    -- 1 is the only key that is ever present
    have hone : ∀ key ∈ keys, key ∈ [1] := by
      intro key hmem
      have hkey := hpresent key hmem
      by_contra hne
      rw [List.mem_singleton] at hne
      simp only [List.prefix_cons_iff, List.prefix_nil] at hpre
      rcases hpre with rfl | ⟨_, rfl, rfl | ⟨_, rfl, rfl⟩⟩ <;> simp [start, MapRun.call, hne] at hkey
    have hlength : keys.length ≤ 1 := (List.subperm_of_subset hnodup hone).length_le
    omega
  · intro h
    have hsecond := h _ (List.prefix_refl _) 1
    revert hsecond
    decide

end MikanSaos
