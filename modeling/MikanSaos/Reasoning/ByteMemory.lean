import Mathlib.Data.BitVec
import Mathlib.Data.List.Pairwise

/-!
# ByteMemory — words in a memory with addresses of 64 bits

Addresses wrap.  A block is a number of bytes from an address on, a word a block of eight bytes with the lowest one
first.  A word that is stored is read back, and so is every word that is apart from it.
-/

namespace Reasoning

abbrev Address := BitVec 64

abbrev Word := BitVec 64

/-- The bytes at all addresses. -/
abbrev ByteMemory := Address → BitVec 8

/-- The address is one of the `n` from `start` on. -/
def InBlock (a start : Address) (n : Nat) : Prop := (a - start).toNat < n

/-- No address is in both blocks. -/
def Apart (a : Address) (n : Nat) (b : Address) (m : Nat) : Prop := ∀ x, InBlock x a n → ¬ InBlock x b m

instance (a start : Address) (n : Nat) : Decidable (InBlock a start n) := inferInstanceAs (Decidable (_ < _))

namespace ByteMemory

def storeBlock (mem : ByteMemory) (start : Address) (n : Nat) (block : Nat → BitVec 8) : ByteMemory := fun a =>
  if InBlock a start n then block (a - start).toNat else mem a

def storeWord (mem : ByteMemory) (a : Address) (v : Word) : ByteMemory :=
  mem.storeBlock a 8 fun k => v.extractLsb' (8 * k) 8

/-- `memcpy` -/
def copyBlock (mem : ByteMemory) (dst src : Address) (n : Nat) : ByteMemory :=
  mem.storeBlock dst n fun k => mem (src + BitVec.ofNat 64 k)

/-- The number in the `n` bytes from `a` on. -/
def loadNat (mem : ByteMemory) (a : Address) : Nat → Nat
  | 0 => 0
  | n + 1 => (mem a).toNat + 256 * loadNat mem (a + 1) n

def loadWord (mem : ByteMemory) (a : Address) : Word := BitVec.ofNat 64 (loadNat mem a 8)

/-- Words stored one after the other, at distances from `base`. -/
def storeFields (mem : ByteMemory) (base : Address) (fields : List (Nat × Word)) : ByteMemory :=
  fields.foldl (fun mem field => mem.storeWord (base + BitVec.ofNat 64 field.1) field.2) mem

/-- Words pushed on a stack that grows down from `sp`. -/
def pushWords (mem : ByteMemory) (sp : Address) : List Word → ByteMemory
  | [] => mem
  | v :: words => pushWords (mem.storeWord (sp - 8) v) (sp - 8) words

/-- The words are in memory, one behind the other. -/
def WordsAt (mem : ByteMemory) (a : Address) : List Word → Prop
  | [] => True
  | v :: words => mem.loadWord a = v ∧ WordsAt mem (a + 8) words

end ByteMemory

/-- The stack pointer after `n` pushes. -/
def below (sp : Address) (n : Nat) : Address := sp - BitVec.ofNat 64 (8 * n)

/-! ## Blocks -/

variable {a b x start : Address} {n m k : Nat}

theorem inBlock_add {i : Nat} (h : i < n) : InBlock (a + BitVec.ofNat 64 i) a n := by
  unfold InBlock
  have heq : a + BitVec.ofNat 64 i - a = BitVec.ofNat 64 i := by
    rw [BitVec.add_comm, BitVec.add_sub_cancel]
  rw [heq, BitVec.toNat_ofNat]
  exact (Nat.mod_le ..).trans_lt h

theorem Apart.symm (h : Apart a n b m) : Apart b m a n := fun x hb ha => h x ha hb

theorem Apart.mono {n' m' : Nat} (h : Apart a n b m) (hn : n' ≤ n) (hm : m' ≤ m) : Apart a n' b m' :=
  fun x hx hy => h x (hx.trans_le hn) (hy.trans_le hm)

/-- A block inside another one. -/
theorem InBlock.of_sub (h : InBlock x (a + BitVec.ofNat 64 k) n) (hk : k + n ≤ m) (hm : m < 2 ^ 64) :
    InBlock x a m := by
  unfold InBlock at *
  bv_omega

theorem Apart.sub {i j : Nat} {n' m' : Nat} (h : Apart a n b m) (hn : i + n' ≤ n) (hm : j + m' ≤ m)
    (hn' : n < 2 ^ 64) (hm' : m < 2 ^ 64) :
    Apart (a + BitVec.ofNat 64 i) n' (b + BitVec.ofNat 64 j) m' :=
  fun x hx hy => h x (hx.of_sub hn hn') (hy.of_sub hm hm')

/-- Blocks from the same address on, each behind the other one. -/
theorem apart_offsets {i j : Nat} (h : i + n ≤ j ∨ j + m ≤ i) (hi : i + n < 2 ^ 64) (hj : j + m < 2 ^ 64) :
    Apart (a + BitVec.ofNat 64 i) n (a + BitVec.ofNat 64 j) m := by
  intro x hx hy
  unfold InBlock at *
  bv_omega

theorem below_succ (sp : Address) (n : Nat) : below sp (n + 1) = below (sp - 8) n := by
  unfold below
  bv_omega

theorem below_below (a : Address) (m n : Nat) : below (below a m) n = below a (m + n) := by
  unfold below
  rw [BitVec.sub_sub, ← BitVec.ofNat_add, Nat.mul_add]

/-- An address is what is aligned, and the rest. -/
theorem and_not_add_and (a m : Address) : (a &&& ~~~m) + (a &&& m) = a := by
  rw [BitVec.add_eq_or_of_and_eq_zero]
  · ext i hi
    simp only [BitVec.getElem_or, BitVec.getElem_and, BitVec.getElem_not]
    cases a[i] <;> cases m[i] <;> rfl
  · ext i hi
    simp only [BitVec.getElem_and, BitVec.getElem_not, BitVec.getElem_zero]
    cases a[i] <;> cases m[i] <;> rfl

/-- The last of the words pushed is in the block of all of them, and so are the others. -/
theorem inBlock_below_succ (hn : 8 * (n + 1) < 2 ^ 64) :
    InBlock x (below b (n + 1)) (8 * (n + 1)) ↔ InBlock x (b - 8) 8 ∨ InBlock x (below (b - 8) n) (8 * n) := by
  unfold InBlock below
  constructor <;> bv_omega

namespace ByteMemory

variable {mem mem' : ByteMemory} {base : Address} {v : Word} {fields : List (Nat × Word)}

/-! ## Loads and stores -/

theorem storeBlock_of_in {block : Nat → BitVec 8} (h : InBlock x a n) :
    mem.storeBlock a n block x = block (x - a).toNat := if_pos h

theorem storeBlock_of_not_in {block : Nat → BitVec 8} (h : ¬ InBlock x a n) : mem.storeBlock a n block x = mem x :=
  if_neg h

theorem storeWord_of_not_in (h : ¬ InBlock x a 8) : mem.storeWord a v x = mem x := storeBlock_of_not_in h

theorem loadNat_congr (h : ∀ i < n, mem (a + BitVec.ofNat 64 i) = mem' (b + BitVec.ofNat 64 i)) :
    mem.loadNat a n = mem'.loadNat b n := by
  induction n generalizing a b with
  | zero => rfl
  | succ n ih =>
    have hfirst := h 0 (Nat.succ_pos n)
    have hrest : ∀ i < n, mem (a + 1 + BitVec.ofNat 64 i) = mem' (b + 1 + BitVec.ofNat 64 i) := by
      intro i hi
      have hi' := h (i + 1) (Nat.succ_lt_succ hi)
      have hnext : ∀ c : Address, c + BitVec.ofNat 64 (i + 1) = c + 1 + BitVec.ofNat 64 i := by
        intro c
        bv_omega
      rwa [hnext, hnext] at hi'
    rw [loadNat, loadNat, ih hrest]
    rw [BitVec.add_zero, BitVec.add_zero] at hfirst
    rw [hfirst]

/-- A word depends on its eight bytes. -/
theorem loadWord_congr (h : ∀ x, InBlock x a 8 → mem x = mem' x) : mem.loadWord a = mem'.loadWord a := by
  unfold loadWord
  rw [loadNat_congr fun i hi => h _ (inBlock_add hi)]

theorem loadWord_storeBlock_of_apart {block : Nat → BitVec 8} (h : Apart a 8 b n) :
    (mem.storeBlock b n block).loadWord a = mem.loadWord a :=
  loadWord_congr fun x hx => storeBlock_of_not_in (h x hx)

theorem loadWord_storeWord_of_apart (h : Apart a 8 b 8) : (mem.storeWord b v).loadWord a = mem.loadWord a :=
  loadWord_storeBlock_of_apart h

theorem storeWord_byte {k : Nat} (hk : k < 8) :
    (mem.storeWord a v (a + BitVec.ofNat 64 k)).toNat = v.toNat / 256 ^ k % 256 := by
  have hdist : (a + BitVec.ofNat 64 k - a).toNat = k := by bv_omega
  unfold storeWord
  rw [storeBlock_of_in (inBlock_add hk), hdist, BitVec.extractLsb'_toNat, Nat.shiftRight_eq_div_pow, Nat.pow_mul]

theorem loadNat_storeWord {k : Nat} (h : k + n = 8) :
    (mem.storeWord a v).loadNat (a + BitVec.ofNat 64 k) n = v.toNat / 256 ^ k % 256 ^ n := by
  induction n generalizing k with
  | zero => rw [loadNat, pow_zero, Nat.mod_one]
  | succ n ih =>
    have hnext : a + BitVec.ofNat 64 k + 1 = a + BitVec.ofNat 64 (k + 1) := by bv_omega
    rw [loadNat, storeWord_byte (by omega), hnext, ih (by omega), pow_succ 256 k, ← Nat.div_div_eq_div_mul,
      pow_succ' 256 n, Nat.mod_mul]

theorem loadWord_storeWord (mem : ByteMemory) (a : Address) (v : Word) : (mem.storeWord a v).loadWord a = v := by
  have hbytes := @loadNat_storeWord a 8 mem v 0 (Nat.zero_add 8)
  rw [BitVec.add_zero, pow_zero, Nat.div_one, Nat.mod_eq_of_lt (show v.toNat < 256 ^ 8 from v.isLt)] at hbytes
  rw [loadWord, hbytes, BitVec.ofNat_toNat, BitVec.setWidth_eq]

theorem loadNat_eq_zero (h : ∀ i < n, mem (a + BitVec.ofNat 64 i) = 0) : mem.loadNat a n = 0 := by
  induction n generalizing a with
  | zero => rfl
  | succ n ih =>
    have hfirst := h 0 (Nat.succ_pos n)
    have hrest : ∀ i < n, mem (a + 1 + BitVec.ofNat 64 i) = 0 := by
      intro i hi
      have hnext : a + BitVec.ofNat 64 (i + 1) = a + 1 + BitVec.ofNat 64 i := by bv_omega
      rw [← hnext]
      exact h (i + 1) (Nat.succ_lt_succ hi)
    rw [BitVec.add_zero] at hfirst
    rw [loadNat, hfirst, ih hrest]
    rfl

theorem loadWord_zeros (hk : k + 8 ≤ n) :
    (mem.storeBlock a n fun _ => 0).loadWord (a + BitVec.ofNat 64 k) = 0 := by
  unfold loadWord
  rw [loadNat_eq_zero fun i hi => ?_]
  · rfl
  · rw [BitVec.add_assoc, ← BitVec.ofNat_add]
    exact storeBlock_of_in (inBlock_add (by omega))
theorem copyBlock_byte {i : Nat} (hi : i < n) (hn : n < 2 ^ 64) :
    mem.copyBlock a b n (a + BitVec.ofNat 64 i) = mem (b + BitVec.ofNat 64 i) := by
  have hdist : (a + BitVec.ofNat 64 i - a).toNat = i := by bv_omega
  unfold copyBlock
  rw [storeBlock_of_in (inBlock_add hi), hdist]

/-- The words of a block that is the same as another one. -/
theorem loadWord_of_same (h : ∀ i < n, mem' (a + BitVec.ofNat 64 i) = mem (b + BitVec.ofNat 64 i)) (hk : k + 8 ≤ n) :
    mem'.loadWord (a + BitVec.ofNat 64 k) = mem.loadWord (b + BitVec.ofNat 64 k) := by
  unfold loadWord
  refine congrArg (BitVec.ofNat 64) (loadNat_congr fun i hi => ?_)
  rw [BitVec.add_assoc, BitVec.add_assoc, ← BitVec.ofNat_add]
  exact h _ (by omega)

/-! ## Fields -/

theorem storeFields_cons (mem : ByteMemory) (base : Address) (field : Nat × Word) (fields : List (Nat × Word)) :
    mem.storeFields base (field :: fields) =
      (mem.storeWord (base + BitVec.ofNat 64 field.1) field.2).storeFields base fields := rfl

theorem storeFields_append (mem : ByteMemory) (base : Address) (fields rest : List (Nat × Word)) :
    mem.storeFields base (fields ++ rest) = (mem.storeFields base fields).storeFields base rest := List.foldl_append

theorem storeFields_of_not_in (hn : n < 2 ^ 64) (hfields : ∀ field ∈ fields, field.1 + 8 ≤ n)
    (h : ¬ InBlock x base n) : mem.storeFields base fields x = mem x := by
  induction fields generalizing mem with
  | nil => rfl
  | cons field fields ih =>
    obtain ⟨hfirst, hrest⟩ := List.forall_mem_cons.mp hfields
    rw [storeFields_cons, ih hrest]
    exact storeWord_of_not_in fun hin => h (hin.of_sub hfirst hn)

theorem loadWord_storeFields_of_apart (hn : n < 2 ^ 64) (hfields : ∀ field ∈ fields, field.1 + 8 ≤ n)
    (h : Apart a 8 base n) : (mem.storeFields base fields).loadWord a = mem.loadWord a :=
  loadWord_congr fun x hx => storeFields_of_not_in hn hfields (h x hx)

/-- A word between the fields is as before. -/
theorem loadWord_storeFields_of_gap (hn : n < 2 ^ 64) (hfields : ∀ field ∈ fields, field.1 + 8 ≤ n) (hk : k + 8 ≤ n)
    (hgap : ∀ l ∈ fields.map Prod.fst, k + 8 ≤ l ∨ l + 8 ≤ k) :
    (mem.storeFields base fields).loadWord (base + BitVec.ofNat 64 k) = mem.loadWord (base + BitVec.ofNat 64 k) := by
  induction fields generalizing mem with
  | nil => rfl
  | cons field fields ih =>
    obtain ⟨hfirst, hrest⟩ := List.forall_mem_cons.mp hfields
    rw [List.map_cons, List.forall_mem_cons] at hgap
    rw [storeFields_cons, ih hrest hgap.2]
    exact loadWord_storeWord_of_apart (apart_offsets hgap.1 (by omega) (by omega))

/-- Fields apart from each other are all read back. -/
theorem loadWord_storeFields (hn : n < 2 ^ 64) (hfields : ∀ field ∈ fields, field.1 + 8 ≤ n)
    (hapart : (fields.map Prod.fst).Pairwise fun k l => k + 8 ≤ l ∨ l + 8 ≤ k) (hmem : (k, v) ∈ fields) :
    (mem.storeFields base fields).loadWord (base + BitVec.ofNat 64 k) = v := by
  induction fields generalizing mem with
  | nil => cases hmem
  | cons field fields ih =>
    obtain ⟨hfirst, hrest⟩ := List.forall_mem_cons.mp hfields
    rw [List.map_cons, List.pairwise_cons] at hapart
    rw [storeFields_cons]
    rcases List.mem_cons.mp hmem with rfl | hmem
    · rw [loadWord_storeFields_of_gap hn hrest hfirst hapart.1, loadWord_storeWord]
    · exact ih hrest hapart.2 hmem

/-! ## Stacks -/

variable {sp : Address} {words rest : List Word} {i : Nat}

theorem wordsAt_congr (h : ∀ x, InBlock x a (8 * words.length) → mem' x = mem x) (hlen : 8 * words.length ≤ 2 ^ 64)
    (hwords : WordsAt mem a words) : WordsAt mem' a words := by
  induction words generalizing a with
  | nil => trivial
  | cons v words ih =>
    rw [List.length_cons] at h hlen
    refine ⟨?_, ih (fun x hx => h x ?_) (by omega) hwords.2⟩
    · rw [← hwords.1]
      exact loadWord_congr fun x hx => h x (hx.trans_le (by omega))
    · unfold InBlock at *
      bv_omega

theorem pushWords_of_not_in (hlen : 8 * words.length < 2 ^ 64)
    (h : ¬ InBlock x (below sp words.length) (8 * words.length)) : mem.pushWords sp words x = mem x := by
  induction words generalizing mem sp with
  | nil => rfl
  | cons v words ih =>
    rw [List.length_cons] at h hlen
    rw [inBlock_below_succ hlen, not_or] at h
    rw [pushWords, ih (by omega) h.2, storeWord_of_not_in h.1]

/-- The words pushed lie on the stack with the last one on top, above them what was there. -/
theorem wordsAt_pushWords (hlen : 8 * (words.length + rest.length) ≤ 2 ^ 64) (hrest : WordsAt mem sp rest) :
    WordsAt (mem.pushWords sp words) (below sp words.length) (words.reverse ++ rest) := by
  induction words generalizing mem sp rest with
  | nil =>
    rw [pushWords, List.length_nil, below]
    simpa using hrest
  | cons v words ih =>
    rw [List.length_cons] at hlen
    rw [pushWords, List.length_cons, below_succ, List.reverse_cons, List.append_assoc]
    apply ih (by rw [List.singleton_append, List.length_cons]; omega)
    refine ⟨loadWord_storeWord .., ?_⟩
    rw [BitVec.sub_add_cancel]
    apply wordsAt_congr (fun x hx => storeWord_of_not_in _) (by omega) hrest
    -- the word pushed is below the stack pointer
    unfold InBlock at *
    bv_omega

theorem pushWords_append (mem : ByteMemory) (sp : Address) (words rest : List Word) :
    mem.pushWords sp (words ++ rest) = (mem.pushWords sp words).pushWords (below sp words.length) rest := by
  induction words generalizing mem sp with
  | nil => rw [List.nil_append, pushWords, List.length_nil, below, Nat.mul_zero, BitVec.sub_zero]
  | cons v words ih => rw [List.cons_append, pushWords, pushWords, ih, List.length_cons, below_succ]

theorem WordsAt.get (h : WordsAt mem a words) (hi : words[i]? = some v) :
    mem.loadWord (a + BitVec.ofNat 64 (8 * i)) = v := by
  induction words generalizing a i with
  | nil => simp at hi
  | cons w words ih =>
    cases i with
    | zero =>
      have hw : w = v := Option.some.inj hi
      rw [Nat.mul_zero, BitVec.add_zero, h.1, hw]
    | succ i =>
      have hnext : a + BitVec.ofNat 64 (8 * (i + 1)) = a + 8 + BitVec.ofNat 64 (8 * i) := by bv_omega
      rw [hnext]
      exact ih h.2 hi

theorem WordsAt.append_left (h : WordsAt mem a (words ++ rest)) : WordsAt mem a words := by
  induction words generalizing a with
  | nil => trivial
  | cons w words ih => exact ⟨h.1, ih h.2⟩

theorem WordsAt.append_right (h : WordsAt mem a (words ++ rest)) :
    WordsAt mem (a + BitVec.ofNat 64 (8 * words.length)) rest := by
  induction words generalizing a with
  | nil => simpa using h
  | cons w words ih =>
    have hnext : a + BitVec.ofNat 64 (8 * (words.length + 1)) = a + 8 + BitVec.ofNat 64 (8 * words.length) :=
      by bv_omega
    rw [List.length_cons, hnext]
    exact ih h.2

end ByteMemory

end Reasoning
