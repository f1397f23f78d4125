import Mathlib.Algebra.Order.Group.Nat
import Mathlib.Data.Set.Basic
import Mathlib.Order.Interval.Finset.Nat
import Mathlib.Order.Interval.Set.Basic

/-!
# Bitmaps stored in machine words

A set of natural numbers kept as consecutive `w`-bit words: element `k` is bit `k % w` of word
`k / w`.  A one-bit mask is or-ed in to add an element and and-ed out to remove it; everything a
client needs is `get_put`, and `get_fill` for a run of consecutive elements.
-/

namespace Reasoning.WordBitmap

variable {w : Nat}

/-- Element `k` of the stored set. -/
def get (words : Nat → BitVec w) (k : Nat) : Bool := (words (k / w)).getLsbD (k % w)

/-- Add or remove element `k` by rewriting the one word that holds it. -/
def put (words : Nat → BitVec w) (k : Nat) (b : Bool) : Nat → BitVec w :=
  Function.update words (k / w)
    (if b then words (k / w) ||| (1#w <<< (k % w)) else words (k / w) &&& ~~~(1#w <<< (k % w)))

theorem getLsbD_oneBit {i j : Nat} (hj : j < w) :
    (1#w <<< i).getLsbD j = decide (j = i) := by
  rw [BitVec.getLsbD_shiftLeft, BitVec.getLsbD_one]
  by_cases hlt : j < i
  · simp [hlt, Nat.ne_of_lt hlt]
  · have hw : 0 < w := by omega
    simp only [hj, hlt, hw, decide_true, decide_false, Bool.not_false, Bool.true_and]
    exact decide_eq_decide.mpr (by omega)

theorem get_put (hw : 0 < w) (words : Nat → BitVec w) (k j : Nat) (b : Bool) :
    get (put words k b) j = if j = k then b else get words j := by
  have hj := Nat.mod_lt j hw
  unfold get put
  by_cases hline : j / w = k / w
  · have hbit : j % w = k % w ↔ j = k := by
      constructor
      · intro h
        rw [← Nat.div_add_mod j w, ← Nat.div_add_mod k w, hline, h]
      · rintro rfl
        rfl
    rw [hline, Function.update_self]
    cases b
    · simp only [Bool.false_eq_true, if_false, BitVec.getLsbD_and, BitVec.getLsbD_not,
        getLsbD_oneBit hj, hj, decide_true, Bool.true_and]
      by_cases h : j = k
      · simp [h]
      · simp [h, mt hbit.mp h]
    · simp only [if_true, BitVec.getLsbD_or, getLsbD_oneBit hj]
      by_cases h : j = k
      · simp [h]
      · simp [h, mt hbit.mp h]
  · rw [Function.update_of_ne hline, if_neg (by rintro rfl; exact hline rfl)]

/-- Words that hold no rewritten element stay as they are. -/
theorem put_of_ne (words : Nat → BitVec w) (k line : Nat) (b : Bool) (h : line ≠ k / w) :
    put words k b line = words line :=
  Function.update_of_ne h _ _

/-- Add or remove `n` consecutive elements, lowest first. -/
def fill (words : Nat → BitVec w) (start : Nat) (b : Bool) : Nat → (Nat → BitVec w)
  | 0 => words
  | n + 1 => put (fill words start b n) (start + n) b

theorem get_fill (hw : 0 < w) (words : Nat → BitVec w) (start n j : Nat) (b : Bool) :
    get (fill words start b n) j = if j ∈ Set.Ico start (start + n) then b else get words j := by
  induction n with
  | zero => simp [fill]
  | succ n ih =>
    rw [fill, get_put hw, ih]
    simp only [Set.mem_Ico]
    by_cases hlast : j = start + n
    · rw [if_pos hlast, if_pos (by omega)]
    · rw [if_neg hlast]
      by_cases hin : start ≤ j ∧ j < start + n
      · rw [if_pos hin, if_pos (by omega)]
      · rw [if_neg hin, if_neg (by omega)]

/-- A run of elements below `w * lines` rewrites none of the words from `lines` on. -/
theorem fill_of_le (words : Nat → BitVec w) (start n lines line : Nat) (b : Bool)
    (hfit : start + n ≤ w * lines) (hline : lines ≤ line) :
    fill words start b n line = words line := by
  induction n with
  | zero => rfl
  | succ n ih =>
    have hlt : (start + n) / w < lines := Nat.div_lt_of_lt_mul (by omega)
    rw [fill, put_of_ne _ _ _ _ (by omega), ih (by omega)]

/-! ## Counting elements -/

/-- The elements of the stored set from `lo` up to, not including, `hi`. -/
def members (words : Nat → BitVec w) (lo hi : Nat) : Finset Nat :=
  (Finset.Ico lo hi).filter fun k => get words k = true

theorem mem_members {words : Nat → BitVec w} {lo hi k : Nat} :
    k ∈ members words lo hi ↔ (lo ≤ k ∧ k < hi) ∧ get words k = true := by
  rw [members, Finset.mem_filter, Finset.mem_Ico]

theorem card_members_add (words : Nat → BitVec w) {lo mid hi : Nat} (hlo : lo ≤ mid)
    (hhi : mid ≤ hi) :
    (members words lo mid).card + (members words mid hi).card = (members words lo hi).card := by
  have hdisj : Disjoint (members words lo mid) (members words mid hi) := by
    rw [Finset.disjoint_left]
    intro k hk hk'
    rw [mem_members] at hk hk'
    omega
  rw [← Finset.card_union_of_disjoint hdisj]
  congr 1
  rw [members, members, ← Finset.filter_union, Finset.Ico_union_Ico_eq_Ico hlo hhi, members]

theorem card_members_le (words : Nat → BitVec w) (lo hi : Nat) :
    (members words lo hi).card ≤ hi - lo := by
  rw [← Nat.card_Ico]
  exact Finset.card_filter_le _ _

/-- Adding the elements `start .. start + n - 1`, none of which was there, adds as many elements as
the run has in `lo .. hi - 1`. -/
theorem card_members_of_added {words words' : Nat → BitVec w} {start n : Nat}
    (hget : ∀ k, get words' k = if start ≤ k ∧ k < start + n then true else get words k)
    (hnew : ∀ k, start ≤ k → k < start + n → get words k = false) (lo hi : Nat) :
    (members words' lo hi).card =
      (members words lo hi).card + (min (start + n) hi - max start lo) := by
  have hsplit : members words' lo hi =
      members words lo hi ∪ Finset.Ico (max start lo) (min (start + n) hi) := by
    ext k
    rw [Finset.mem_union, mem_members, mem_members, Finset.mem_Ico, hget]
    by_cases hk : start ≤ k ∧ k < start + n
    · rw [if_pos hk]
      simp only [and_true]
      omega
    · rw [if_neg hk]
      have hout : ¬ (max start lo ≤ k ∧ k < min (start + n) hi) := by omega
      simp only [hout, or_false]
  have hdisj : Disjoint (members words lo hi)
      (Finset.Ico (max start lo) (min (start + n) hi)) := by
    rw [Finset.disjoint_left]
    intro k hk hrun
    rw [mem_members] at hk
    rw [Finset.mem_Ico] at hrun
    rw [hnew k (by omega) (by omega)] at hk
    cases hk.2
  rw [hsplit, Finset.card_union_of_disjoint hdisj, Nat.card_Ico]

theorem members_congr {words words' : Nat → BitVec w} (h : ∀ k, get words' k = get words k)
    (lo hi : Nat) : members words' lo hi = members words lo hi := by
  ext k
  rw [mem_members, mem_members, h]

/-- The number of one bits of a word. -/
def popCount (word : BitVec w) : Nat := (List.range w).countP fun i => word.getLsbD i

/-- A word's one bits are the elements kept in it. -/
theorem popCount_eq_card (words : Nat → BitVec w) (line : Nat) :
    popCount (words line) = (members words (w * line) (w * (line + 1))).card := by
  have hword : members words (w * line) (w * (line + 1)) =
      ((List.range w).toFinset.filter fun i => (words line).getLsbD i = true).map
        (addLeftEmbedding (w * line)) := by
    ext k
    rw [mem_members, Finset.mem_map]
    constructor
    · rintro ⟨⟨hlo, hhi⟩, hk⟩
      obtain ⟨i, rfl⟩ := Nat.exists_eq_add_of_le hlo
      have hi : i < w := by rw [Nat.mul_succ] at hhi; omega
      refine ⟨i, ?_, rfl⟩
      rw [get, Nat.mul_add_div (by omega), Nat.div_eq_of_lt hi, Nat.mul_add_mod,
        Nat.mod_eq_of_lt hi] at hk
      simpa [hi] using hk
    · rintro ⟨i, hi, rfl⟩
      simp only [Finset.mem_filter, List.mem_toFinset, List.mem_range] at hi
      obtain ⟨hlt, hbit⟩ := hi
      rw [addLeftEmbedding_apply, get, Nat.mul_add_div (by omega), Nat.div_eq_of_lt hlt,
        Nat.mul_add_mod, Nat.mod_eq_of_lt hlt, Nat.mul_succ]
      exact ⟨⟨by omega, by omega⟩, hbit⟩
  rw [hword, Finset.card_map, popCount, List.countP_eq_length_filter,
    ← List.toFinset_filter, List.toFinset_card_of_nodup ((List.nodup_range).filter _)]

end Reasoning.WordBitmap
