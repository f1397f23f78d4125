import Mathlib.Data.Nat.Bitwise

/-!
# Bit fields of a number

A field is a range of bits.  An assignment to it keeps the low bits of the value, and leaves the fields apart from it
as they are.
-/

namespace Reasoning

/-- The bits from `offset` on. -/
structure BitField where
  offset : Nat
  width : Nat
  deriving DecidableEq

namespace BitField

variable {n v i : Nat} {f g : BitField} {l : List (BitField × Nat)}

def get (n : Nat) (f : BitField) : Nat := n / 2 ^ f.offset % 2 ^ f.width

def set (n : Nat) (f : BitField) (v : Nat) : Nat :=
  n % 2 ^ f.offset + 2 ^ f.offset * (v % 2 ^ f.width + 2 ^ f.width * (n / 2 ^ (f.offset + f.width)))

/-- Assignments, one after the other. -/
def assign (n : Nat) (l : List (BitField × Nat)) : Nat := l.foldl (fun n fv => set n fv.1 fv.2) n

/-- The fields have no bit in common. -/
def Apart (f g : BitField) : Prop := f.offset + f.width ≤ g.offset ∨ g.offset + g.width ≤ f.offset

instance : DecidableRel Apart := fun _ _ => inferInstanceAs (Decidable (_ ∨ _))

theorem Apart.symm (h : Apart f g) : Apart g f := Or.symm h

/-! ## Bits -/

theorem testBit_get : (get n f).testBit i = (decide (i < f.width) && n.testBit (f.offset + i)) := by
  unfold get
  rw [Nat.testBit_mod_two_pow, Nat.testBit_div_two_pow, Nat.add_comm]

theorem testBit_set : (set n f v).testBit i =
    if f.offset ≤ i ∧ i < f.offset + f.width then v.testBit (i - f.offset) else n.testBit i := by
  unfold set
  rw [Nat.add_comm, Nat.testBit_two_pow_mul_add _ (Nat.mod_lt _ (Nat.two_pow_pos _))]
  by_cases hlow : i < f.offset
  · rw [if_pos hlow, if_neg (by omega), Nat.testBit_mod_two_pow]
    simp [hlow]
  · rw [if_neg hlow, Nat.add_comm (v % 2 ^ f.width), Nat.testBit_two_pow_mul_add _ (Nat.mod_lt _ (Nat.two_pow_pos _))]
    by_cases hin : i - f.offset < f.width
    · rw [if_pos hin, if_pos (by omega), Nat.testBit_mod_two_pow]
      simp [hin]
    · rw [if_neg hin, if_neg (by omega), Nat.testBit_div_two_pow]
      congr 1
      omega

/-! ## Assignments -/

theorem get_set_self : get (set n f v) f = v % 2 ^ f.width := by
  apply Nat.eq_of_testBit_eq
  intro i
  rw [testBit_get, testBit_set, Nat.testBit_mod_two_pow]
  by_cases hi : i < f.width
  · rw [if_pos (by omega), Nat.add_sub_cancel_left]
  · simp [hi]

theorem get_set_of_apart (h : Apart f g) : get (set n f v) g = get n g := by
  apply Nat.eq_of_testBit_eq
  intro i
  rw [testBit_get, testBit_get, testBit_set]
  by_cases hi : i < g.width
  · rw [if_neg]
    unfold Apart at h
    omega
  · simp [hi]

theorem get_assign_of_apart (h : ∀ fv ∈ l, Apart fv.1 g) : get (assign n l) g = get n g := by
  induction l generalizing n with
  | nil => rfl
  | cons fv l ih =>
    rw [List.forall_mem_cons] at h
    have hrest := ih (n := set n fv.1 fv.2) h.2
    exact hrest.trans (get_set_of_apart h.1)

/-- What is read back, when no field is assigned to twice. -/
theorem get_assign (hapart : (l.map Prod.fst).Pairwise Apart) (h : (f, v) ∈ l) :
    get (assign n l) f = v % 2 ^ f.width := by
  induction l generalizing n with
  | nil => exact absurd h List.not_mem_nil
  | cons fv l ih =>
    rw [List.map_cons, List.pairwise_cons] at hapart
    rcases List.mem_cons.mp h with rfl | hmem
    · have hrest : get (assign (set n f v) l) f = get (set n f v) f :=
        get_assign_of_apart fun gv hgv => (hapart.1 gv.1 (List.mem_map_of_mem hgv)).symm
      exact hrest.trans get_set_self
    · exact ih (n := set n fv.1 fv.2) hapart.2 hmem

end BitField

end Reasoning
