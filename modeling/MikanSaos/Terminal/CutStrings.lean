import MikanSaos.App.Instances
import MikanSaos.Terminal.Printing
import Mathlib.Data.List.TakeWhile

/-!
# CutStrings — strings cut in place

`strchr` looks for a character in a string, and the program ends the string there with a NUL.  All strings that
it then takes from the buffer begin at an index of the original text; what a cut does to such a string depends
only on whether the character comes before this index.
-/

namespace MikanSaos

/-- The index of the first `c`, which is not NUL. -/
def strchr (s : List UInt8) (c : UInt8) : Option Nat :=
  if c ∈ cString s then some ((cString s).idxOf c) else none

/-- Puts a NUL to where `strchr` has found its character. -/
def cut (s : List UInt8) : Option Nat → List UInt8
  | none => s
  | some i => s.set i 0

/-- The string at index `i` of a buffer. -/
def stringAt (s : List UInt8) (i : Nat) : List UInt8 := cString (s.drop i)

/-- The loop `while (isspace(*p)) p++`. -/
def skipSpaces (s : List UInt8) (i : Nat) : Nat := i + ((s.drop i).takeWhile isspace).length

/-- A buffer that holds a text, of which some characters may have been cut. -/
structure CutOf (t s : List UInt8) : Prop where
  isPrefix : ∀ i ≤ t.length, stringAt s i <+: t.drop i

variable {s s₀ t pre rest : List UInt8} {c : UInt8} {i k : Nat}

/-! ## Prefixes up to a character -/

theorem take_idxOf (s : List UInt8) (c : UInt8) : s.take (s.idxOf c) = s.takeWhile (· ≠ c) := by
  induction s with
  | nil => rfl
  | cons b s ih =>
    by_cases hb : b = c
    · simp [hb]
    · simp [List.idxOf_cons_ne _ hb, hb, ih]

theorem takeWhile_ne_of_notMem (h : c ∉ s) : s.takeWhile (· ≠ c) = s := by
  rw [List.takeWhile_eq_self_iff]
  exact fun b hb => decide_eq_true fun hbc => h (hbc ▸ hb)

theorem takeWhile_ne_append (h : c ∉ s) : (s ++ rest).takeWhile (· ≠ c) = s ++ rest.takeWhile (· ≠ c) := by
  apply List.takeWhile_append_of_pos
  exact fun b hb => decide_eq_true fun hbc => h (hbc ▸ hb)

theorem dropWhile_ne_append (h : c ∉ s) : (s ++ c :: rest).dropWhile (· ≠ c) = c :: rest := by
  have hne : ∀ b ∈ s, decide (b ≠ c) = true := fun b hb => decide_eq_true fun hbc => h (hbc ▸ hb)
  rw [List.dropWhile_append_of_pos hne]
  simp

theorem takeWhile_ne_append_of_mem (h : c ∈ s) : (s ++ rest).takeWhile (· ≠ c) = s.takeWhile (· ≠ c) := by
  induction s with
  | nil => cases h
  | cons b s ih =>
    by_cases hb : b = c
    · simp [hb]
    · have hmem : c ∈ s := (List.mem_cons.mp h).resolve_left (Ne.symm hb)
      rw [List.cons_append, List.takeWhile_cons, List.takeWhile_cons, ih hmem]

theorem takeWhile_ne_eq_nil : s.takeWhile (· ≠ c) = [] ↔ ∀ b ∈ s.head?, b = c := by
  cases s with
  | nil => simp
  | cons b s => by_cases hb : b = c <;> simp [hb]

/-- The first `c` of a text ends a prefix of it as well. -/
theorem take_idxOf_of_isPrefix (h : s <+: t) : s.take (t.idxOf c) = s.takeWhile (· ≠ c) := by
  obtain ⟨rest, rfl⟩ := h
  rw [List.idxOf_append]
  split
  · exact take_idxOf s c
  · rename_i hc
    rw [List.take_of_length_le (by omega), takeWhile_ne_of_notMem hc]

theorem idxOf_drop (h : c ∉ t.take i) : (t.drop i).idxOf c = t.idxOf c - i := by
  by_cases hi : i ≤ t.length
  · have hindex : (t.take i ++ t.drop i).idxOf c = (t.drop i).idxOf c + (t.take i).length :=
      (List.idxOf_append_of_notMem h).trans (Nat.add_comm _ _)
    rw [List.take_append_drop, List.length_take, Nat.min_eq_left hi] at hindex
    omega
  · rw [List.drop_of_length_le (by omega)]
    have hle := List.idxOf_le_length (a := c) (l := t)
    rw [List.idxOf_nil]
    omega

/-! ## The string at an index -/

theorem cString_set (s : List UInt8) (k : Nat) : cString (s.set k 0) = (cString s).take k := by
  induction s generalizing k with
  | nil => exact List.take_nil.symm
  | cons b s ih =>
    cases k with
    | zero => rfl
    | succ k =>
      rw [List.set_cons_succ]
      by_cases hb : b = 0
      · subst hb
        rfl
      · rw [cString_cons hb, cString_cons hb, List.take_succ_cons, ih]

theorem stringAt_set (s : List UInt8) (k i : Nat) :
    stringAt (s.set k 0) i = if k < i then stringAt s i else (stringAt s i).take (k - i) := by
  unfold stringAt
  rw [List.drop_set]
  split
  · rfl
  · rw [cString_set]

theorem stringAt_cString (h : i ≤ (cString s).length) : stringAt s i = (cString s).drop i := by
  induction s generalizing i with
  | nil =>
    unfold stringAt
    rw [List.drop_nil]
    exact List.drop_nil.symm
  | cons b s ih =>
    cases i with
    | zero => rfl
    | succ i =>
      by_cases hb : b = 0
      · subst hb
        exact absurd h (Nat.not_succ_le_zero i)
      · rw [cString_cons hb] at h ⊢
        exact ih (Nat.le_of_succ_le_succ h)

theorem stringAt_succ (h : stringAt s i = c :: rest) : stringAt s (i + 1) = rest := by
  have hle : 1 ≤ (cString (s.drop i)).length := by
    rw [show cString (s.drop i) = c :: rest from h]
    exact Nat.le_add_left _ _
  have hat := stringAt_cString hle
  unfold stringAt at h hat
  rw [h, List.drop_drop] at hat
  exact hat

/-- A loop that compares a character with 0 tests for the end of the string. -/
theorem getD_eq_zero_iff : s.getD i 0 = 0 ↔ stringAt s i = [] := by
  have hdrop : s.getD i 0 = (s.drop i).getD 0 0 := by
    rw [List.getD_eq_getElem?_getD, List.getD_eq_getElem?_getD, List.getElem?_drop, Nat.add_zero]
  unfold stringAt
  rw [hdrop]
  -- behind the end of the buffer, or at its first byte from `i` on
  cases s.drop i with
  | nil => simp [cString]
  | cons b s =>
    by_cases hb : b = 0
    · subst hb
      simp [cString]
    · simp [cString_cons hb, hb]

/-- A loop over characters other than NUL stops at the end of the string. -/
theorem takeWhile_cString {f : UInt8 → Bool} (hf : f 0 = false) (s : List UInt8) :
    (cString s).takeWhile f = s.takeWhile f := by
  induction s with
  | nil => rfl
  | cons b s ih =>
    by_cases hb : b = 0
    · subst hb
      rw [cString_zero_cons, List.takeWhile_cons, hf]
      rfl
    · rw [cString_cons hb, List.takeWhile_cons, List.takeWhile_cons, ih]

theorem stringAt_takeWhile {f : UInt8 → Bool} (hf : f 0 = false) (s : List UInt8) (i : Nat) :
    stringAt s (i + ((s.drop i).takeWhile f).length) = (stringAt s i).dropWhile f := by
  have hsame := takeWhile_cString hf (s.drop i)
  have hsplit : (cString (s.drop i)).takeWhile f ++ (cString (s.drop i)).dropWhile f = cString (s.drop i) :=
    List.takeWhile_append_dropWhile
  have hle : ((s.drop i).takeWhile f).length ≤ (cString (s.drop i)).length := by
    rw [← hsame]
    exact (List.takeWhile_sublist f).length_le
  have hdrop : stringAt s (i + ((s.drop i).takeWhile f).length) =
      (stringAt s i).drop ((s.drop i).takeWhile f).length := by
    have hat := stringAt_cString hle
    unfold stringAt at hat ⊢
    rw [← List.drop_drop]
    exact hat
  rw [hdrop, ← hsame]
  unfold stringAt
  nth_rewrite 2 [← hsplit]
  rw [List.drop_left]

theorem isspace_zero : isspace 0 = false := by decide

theorem stringAt_skipSpaces (s : List UInt8) (i : Nat) :
    stringAt s (skipSpaces s i) = (stringAt s i).dropWhile isspace := stringAt_takeWhile isspace_zero s i

/-! ## Cuts of a text -/

theorem CutOf.refl (s : List UInt8) : CutOf (cString s) s where
  isPrefix := fun i hi => by rw [stringAt_cString hi]

theorem strchr_of_notMem (h : c ∉ cString s) : strchr s c = none := if_neg h

theorem strchr_eq (h : cString s = pre ++ c :: rest) (hpre : c ∉ pre) : strchr s c = some pre.length := by
  unfold strchr
  rw [h, if_pos (List.mem_append_right _ List.mem_cons_self), List.idxOf_append_of_notMem hpre]
  simp

/-- **What a cut does.**  A string that begins behind the first `c` of the text stays, any other one ends there. -/
theorem CutOf.cut (h : CutOf t s) (ht : cString s₀ = t) (c : UInt8) : CutOf t (cut s (strchr s₀ c)) ∧
    ∀ i ≤ t.length, stringAt (MikanSaos.cut s (strchr s₀ c)) i =
      if c ∈ t.take i then stringAt s i else (stringAt s i).takeWhile (· ≠ c) := by
  have hcut : ∀ i ≤ t.length, stringAt (MikanSaos.cut s (strchr s₀ c)) i =
      if c ∈ t.take i then stringAt s i else (stringAt s i).takeWhile (· ≠ c) := by
    intro i hi
    by_cases hc : c ∈ t
    · -- the NUL comes to the first `c` of the text, which is before index `i` or behind it
      unfold strchr
      rw [ht, if_pos hc]
      show stringAt (s.set (t.idxOf c) 0) i = _
      rw [stringAt_set]
      by_cases htake : c ∈ t.take i
      · have hbefore : t.idxOf c < i := by
          rw [List.mem_take_iff_idxOf_lt hc] at htake
          exact htake
        rw [if_pos hbefore, if_pos htake]
      · have hbehind : ¬ t.idxOf c < i := fun hlt => htake ((List.mem_take_iff_idxOf_lt hc).mpr hlt)
        rw [if_neg hbehind, if_neg htake, ← idxOf_drop htake]
        exact take_idxOf_of_isPrefix (h.isPrefix i hi)
    · have hnone : strchr s₀ c = none := strchr_of_notMem (by rw [ht]; exact hc)
      rw [hnone, if_neg fun hmem => hc (List.mem_of_mem_take hmem), takeWhile_ne_of_notMem]
      · rfl
      · exact fun hmem => hc (List.mem_of_mem_drop ((h.isPrefix i hi).subset hmem))
  refine ⟨⟨fun i hi => ?_⟩, hcut⟩
  rw [hcut i hi]
  split
  · exact h.isPrefix i hi
  · exact (List.takeWhile_prefix _).trans (h.isPrefix i hi)

/-- The string at index `i` of a text that has been cut at the first of each of the characters `cs`. -/
def cutString (t cs : List UInt8) (i : Nat) : List UInt8 := (t.drop i).takeWhile fun c => c ∉ cs ∨ c ∈ t.take i

/-- The buffer holds the text, cut at `cs`. -/
structure CutAt (t cs s : List UInt8) : Prop extends CutOf t s where
  string : ∀ i ≤ t.length, stringAt s i = cutString t cs i

theorem CutAt.nil (ht : cString s = t) : CutAt t [] s where
  toCutOf := ht ▸ CutOf.refl s
  string := by
    intro i hi
    subst ht
    have hall : (cString s).drop i = cutString (cString s) [] i := by
      unfold cutString
      symm
      rw [List.takeWhile_eq_self_iff]
      exact fun b _ => decide_eq_true (.inl List.not_mem_nil)
    rw [stringAt_cString hi, ← hall]

theorem CutAt.cut {cs : List UInt8} (h : CutAt t cs s) (ht : cString s₀ = t) (c : UInt8) :
    CutAt t (c :: cs) (MikanSaos.cut s (strchr s₀ c)) where
  toCutOf := (h.toCutOf.cut ht c).1
  string := by
    intro i hi
    rw [(h.toCutOf.cut ht c).2 i hi, h.string i hi]
    unfold cutString
    by_cases hc : c ∈ t.take i
    · -- a `c` in the string is not the first one, and stays
      rw [if_pos hc]
      congr 1
      funext b
      by_cases hb : b = c
      · subst hb
        simp [hc]
      · simp [hb]
    · rw [if_neg hc, List.takeWhile_takeWhile]
      congr 1
      funext b
      by_cases hb : b = c
      · subst hb
        simp [hc]
      · simp [hb]

/-- A character that is not dropped ends the dropping. -/
theorem head_of_dropWhile {f : UInt8 → Bool} (h : s.dropWhile f = c :: rest) : f c = false := by
  have hne : s.dropWhile f ≠ [] := by
    rw [h]
    exact List.cons_ne_nil _ _
  have hhead := List.head_dropWhile_not f hne
  simpa [h] using hhead

theorem takeWhile_append_of_head {f : UInt8 → Bool} (h : ∀ c ∈ rest.head?, f c = false) :
    (s ++ rest).takeWhile f = s.takeWhile f := by
  induction s with
  | nil =>
    cases rest with
    | nil => rfl
    | cons b rest => simp [h b rfl]
  | cons b s ih => rw [List.cons_append, List.takeWhile_cons, List.takeWhile_cons, ih]

/-- A part of the text, with a character behind it at which the text has been cut. -/
theorem cutString_part {cs part : List UInt8} (hrest : ∀ c ∈ rest.head?, c ∈ cs ∧ c ∉ pre) :
    cutString (pre ++ (part ++ rest)) cs pre.length = part.takeWhile fun c => c ∉ cs ∨ c ∈ pre := by
  unfold cutString
  rw [List.drop_left, List.take_left]
  apply takeWhile_append_of_head
  intro c hc
  simpa using hrest c hc

/-- A part in which only the character `c` can be one of those cut at. -/
theorem takeWhile_cut {cs part : List UInt8} (hcs : c ∈ cs) (hpart : ∀ b ∈ part, b ∈ cs → b ∉ pre → b = c) :
    (part.takeWhile fun b => b ∉ cs ∨ b ∈ pre) = if c ∈ pre then part else part.takeWhile (· ≠ c) := by
  split
  · rename_i hc
    rw [List.takeWhile_eq_self_iff]
    intro b hb
    by_cases hbcs : b ∈ cs
    · by_cases hbpre : b ∈ pre
      · simp [hbpre]
      · have heq := hpart b hb hbcs hbpre
        exact absurd (heq ▸ hc) hbpre
    · simp [hbcs]
  · rename_i hc
    induction part with
    | nil => rfl
    | cons b part ih =>
      rw [List.forall_mem_cons] at hpart
      rw [List.takeWhile_cons, List.takeWhile_cons, ih hpart.2]
      congr 1
      by_cases hb : b = c
      · subst hb
        simp [hcs, hc]
      · have hlive : b ∉ cs ∨ b ∈ pre := by
          by_contra hnot
          rw [not_or, not_not] at hnot
          exact hb (hpart.1 hnot.1 hnot.2)
        simp [hb, hlive]

/-- The string at a part of the text: it ends with the part, or at the first `c` in it, if none comes before. -/
theorem CutAt.stringAt_part {cs part : List UInt8} (h : CutAt t cs s) (ht : t = pre ++ (part ++ rest))
    (hrest : ∀ b ∈ rest.head?, b ∈ cs ∧ b ∉ pre) (hcs : c ∈ cs)
    (hpart : ∀ b ∈ part, b ∈ cs → b ∉ pre → b = c) :
    stringAt s pre.length = if c ∈ pre then part else part.takeWhile (· ≠ c) := by
  have hle : pre.length ≤ t.length := by
    rw [ht]
    exact (List.prefix_append _ _).length_le
  rw [h.string _ hle, ht, cutString_part hrest, takeWhile_cut hcs hpart]

end MikanSaos
