import MikanSaos.Reasoning.Pool
import MikanSaos.Reasoning.Reach
import MikanSaos.Usb.Ring
import MikanSaos.Word64
import Mathlib.Order.Interval.Set.Disjoint
import Mathlib.Order.Interval.Set.LinearOrder

/-!
# MemoryPool — the blocks of the USB driver

`AllocMem` moves a pointer through a static array.  It rounds the pointer up before it knows whether the block
fits, so a call that fails can take what is left of the pool.
-/

namespace MikanSaos

open Reasoning

/-- `Align` on a 64-bit word: `(value + alignment - 1) & ~(alignment - 1)`. -/
def align64 (value alignment : Nat) : Nat := add64 value (alignment - 1) &&& (2 ^ 64 - 1 - (alignment - 1))

/-- `AllocMem` with the sums of the machine; no block is the null pointer. -/
def MemoryPool.allocMem64 (p : MemoryPool) (size alignment boundary : Nat) : Option Nat × MemoryPool :=
  let allocPtr := if 0 < alignment then align64 p.allocPtr alignment else p.allocPtr
  let allocPtr :=
    if 0 < boundary then
      let nextBoundary := align64 allocPtr boundary
      if add64 allocPtr size > nextBoundary then nextBoundary else allocPtr
    else allocPtr
  if add64 allocPtr size > p.memoryPool + kMemoryPollSize then (none, { p with allocPtr := allocPtr })
  else (some allocPtr, { p with allocPtr := add64 allocPtr size })

/-- The arguments of a call. -/
structure AllocCall where
  size : Nat
  alignment : Nat
  boundary : Nat
  size_lt : size < 2 ^ 63
  alignment_eq : alignment = 0 ∨ ∃ k < 32, alignment = 2 ^ k
  boundary_eq : boundary = 0 ∨ ∃ k < 32, boundary = 2 ^ k
  alignment_le : 0 < alignment → 0 < boundary → alignment ≤ boundary

/-- The pool and the blocks that have been returned, the last one first. -/
structure PoolState where
  pool : MemoryPool
  blocks : List (Nat × AllocCall)

namespace PoolState

/-- The pool lies in the lower half of the address space, where the kernel is linked. -/
def Start (s : PoolState) : Prop :=
  s.pool.memoryPool + kMemoryPollSize ≤ 2 ^ 63 ∧ s.pool.allocPtr = s.pool.memoryPool ∧ s.blocks = []

def alloc (s : PoolState) (c : AllocCall) : PoolState :=
  match s.pool.allocMem64 c.size c.alignment c.boundary with
  | (some addr, pool) => ⟨pool, (addr, c) :: s.blocks⟩
  | (none, pool) => ⟨pool, s.blocks⟩

def poolEnd (s : PoolState) : Nat := s.pool.memoryPool + kMemoryPollSize

/-- Where the last block ends. -/
def top (s : PoolState) : Nat :=
  match s.blocks with
  | [] => s.pool.memoryPool
  | (addr, c) :: _ => addr + c.size

end PoolState

namespace AllocCall

/-- A place for the block: aligned, and on one side of each multiple of the boundary.  A block that is larger than
the boundary begins at a multiple of it. -/
structure Admissible (c : AllocCall) (addr : Nat) : Prop where
  aligned : 0 < c.alignment → c.alignment ∣ addr
  whole : 0 < c.boundary → c.size ≤ c.boundary → ∀ m, c.boundary ∣ m → addr < m → addr + c.size ≤ m
  begins : 0 < c.boundary → c.boundary < c.size → c.boundary ∣ addr

/-- There is a place from an address on. -/
def Fits (c : AllocCall) (first last : Nat) : Prop := ∃ addr, first ≤ addr ∧ addr + c.size ≤ last ∧ c.Admissible addr

end AllocCall

namespace PoolState

def region (block : Nat × AllocCall) : Set Nat := Set.Ico block.1 (block.1 + block.2.size)

/-- What is guaranteed of the blocks. -/
structure Good (s : PoolState) : Prop where
  inside : ∀ b ∈ s.blocks, s.pool.memoryPool ≤ b.1 ∧ b.1 + b.2.size ≤ s.poolEnd
  admissible : ∀ b ∈ s.blocks, b.2.Admissible b.1
  disjoint : (s.blocks.map region).Pairwise Disjoint

/-- Every call succeeds for which there is a place behind the last block. -/
def Open (s : PoolState) : Prop :=
  ∀ c : AllocCall, c.Fits s.top s.poolEnd → (s.pool.allocMem64 c.size c.alignment c.boundary).1 ≠ none

/-- The call fits, or the pointer need not be moved for it. -/
def Guard (s : PoolState) (c : AllocCall) : Prop := c.Fits s.pool.allocPtr s.poolEnd ∨ c.Admissible s.pool.allocPtr

end PoolState

/-! ## Rounding -/

variable {value n m k : Nat}

/-- The mask clears the lowest bits. -/
theorem and_mask (hk : k ≤ 64) (hvalue : value < 2 ^ 64) :
    value &&& (2 ^ 64 - 1 - (2 ^ k - 1)) = value / 2 ^ k * 2 ^ k := by
  apply Nat.eq_of_testBit_eq
  intro i
  have hpos := Nat.two_pow_pos k
  have hle : 2 ^ k ≤ 2 ^ 64 := Nat.pow_le_pow_right (by decide) hk
  have hmask : 2 ^ 64 - 1 - (2 ^ k - 1) = 2 ^ 64 - (2 ^ k - 1 + 1) := by omega
  rw [hmask, Nat.testBit_and, Nat.testBit_two_pow_sub_succ (by omega), Nat.testBit_two_pow_sub_one,
    ← Nat.shiftRight_eq_div_pow, ← Nat.shiftLeft_eq, Nat.testBit_shiftLeft, Nat.testBit_shiftRight]
  by_cases hi : i < k
  · simp [hi]
  · have hsum : k + (i - k) = i := by omega
    by_cases hlarge : i < 64
    · simp [hi, hlarge, hsum]
      omega
    · have hbit : value.testBit i = false :=
        Nat.testBit_lt_two_pow (hvalue.trans_le (Nat.pow_le_pow_right (by decide) (by omega)))
      simp [hbit, hsum]

theorem align64_eq (hk : k < 32) (hvalue : value ≤ 2 ^ 63) : align64 value (2 ^ k) = align value (2 ^ k) := by
  have hpos := Nat.two_pow_pos k
  have hsmall : 2 ^ k < 2 ^ 32 := Nat.pow_lt_pow_right (by decide) hk
  have hsum : add64 value (2 ^ k - 1) = value + (2 ^ k - 1) := Nat.mod_eq_of_lt (by omega)
  unfold align64 align
  rw [hsum, and_mask (by omega) (by omega), Nat.add_sub_assoc hpos]

theorem dvd_align : n ∣ align value n := Nat.dvd_mul_left ..

theorem le_align (hn : 0 < n) : value ≤ align value n := by
  have hdiv := Nat.div_add_mod (value + n - 1) n
  have hmod := Nat.mod_lt (value + n - 1) hn
  unfold align
  rw [Nat.mul_comm]
  omega

/-- No smaller multiple will do. -/
theorem align_le (hn : 0 < n) (hm : n ∣ m) (hle : value ≤ m) : align value n ≤ m := by
  obtain ⟨q, rfl⟩ := hm
  unfold align
  rw [Nat.mul_comm n q]
  apply Nat.mul_le_mul_right
  apply Nat.le_of_lt_succ
  rw [Nat.div_lt_iff_lt_mul hn, Nat.succ_mul, Nat.mul_comm q n]
  omega
/-! ## Where a block is put -/

namespace AllocCall

variable {c : AllocCall} {addr first last : Nat} {p : MemoryPool}

theorem boundary_dvd (c : AllocCall) (halign : 0 < c.alignment) (hboundary : 0 < c.boundary) :
    c.alignment ∣ c.boundary := by
  have hle := c.alignment_le halign hboundary
  obtain ⟨i, -, hi⟩ := c.alignment_eq.resolve_left (by omega)
  obtain ⟨j, -, hj⟩ := c.boundary_eq.resolve_left (by omega)
  rw [hi, hj] at hle ⊢
  exact Nat.pow_dvd_pow 2 ((Nat.pow_le_pow_iff_right (by decide)).mp hle)

theorem align64_alignment (c : AllocCall) (halign : 0 < c.alignment) (hvalue : value ≤ 2 ^ 63) :
    align64 value c.alignment = align value c.alignment := by
  obtain ⟨k, hk, heq⟩ := c.alignment_eq.resolve_left (by omega)
  rw [heq]
  exact align64_eq hk hvalue

theorem align64_boundary (c : AllocCall) (hboundary : 0 < c.boundary) (hvalue : value ≤ 2 ^ 63) :
    align64 value c.boundary = align value c.boundary := by
  obtain ⟨k, hk, heq⟩ := c.boundary_eq.resolve_left (by omega)
  rw [heq]
  exact align64_eq hk hvalue

theorem align_alignment_le (c : AllocCall) (halign : 0 < c.alignment) (hvalue : value ≤ 2 ^ 63) :
    align value c.alignment ≤ 2 ^ 63 := by
  obtain ⟨k, hk, heq⟩ := c.alignment_eq.resolve_left (by omega)
  apply align_le halign _ hvalue
  rw [heq]
  exact Nat.pow_dvd_pow 2 (by omega)

theorem align_boundary_le (c : AllocCall) (hboundary : 0 < c.boundary) (hvalue : value ≤ 2 ^ 63) :
    align value c.boundary ≤ 2 ^ 63 := by
  obtain ⟨k, hk, heq⟩ := c.boundary_eq.resolve_left (by omega)
  apply align_le hboundary _ hvalue
  rw [heq]
  exact Nat.pow_dvd_pow 2 (by omega)

/-- The pointer after the first rounding. -/
def firstPlace (c : AllocCall) (value : Nat) : Nat := if 0 < c.alignment then align value c.alignment else value

theorem firstPlace_le (hvalue : value ≤ 2 ^ 63) : c.firstPlace value ≤ 2 ^ 63 := by
  unfold firstPlace
  split
  · rename_i halign
    exact c.align_alignment_le halign hvalue
  · exact hvalue

/-- The block is not put into the upper half, so no sum is more than a word. -/
theorem place_le (hptr : p.allocPtr ≤ 2 ^ 63) : p.place c.size c.alignment c.boundary ≤ 2 ^ 63 := by
  have hfirst := c.firstPlace_le hptr
  change (if 0 < c.boundary ∧ c.firstPlace p.allocPtr + c.size > align (c.firstPlace p.allocPtr) c.boundary then
    align (c.firstPlace p.allocPtr) c.boundary else c.firstPlace p.allocPtr) ≤ 2 ^ 63
  split
  · rename_i h
    exact c.align_boundary_le h.1 hfirst
  · exact hfirst

/-- The sums of the machine are those of the numbers. -/
theorem allocMem64_eq (c : AllocCall) (hptr : p.allocPtr ≤ 2 ^ 63) :
    p.allocMem64 c.size c.alignment c.boundary = p.allocMem c.size c.alignment c.boundary := by
  have hsize := c.size_lt
  have hplace := c.place_le hptr
  have hfirst := c.firstPlace_le hptr
  have hfirst64 : (if 0 < c.alignment then align64 p.allocPtr c.alignment else p.allocPtr) =
      c.firstPlace p.allocPtr := by
    unfold firstPlace
    split
    · rename_i halign
      exact c.align64_alignment halign hptr
    · rfl
  have hadd : ∀ value ≤ 2 ^ 63, add64 value c.size = value + c.size := fun value hvalue =>
    Nat.mod_eq_of_lt (by omega)
  have hplace64 : (if 0 < c.boundary then
      if add64 (c.firstPlace p.allocPtr) c.size > align64 (c.firstPlace p.allocPtr) c.boundary then
        align64 (c.firstPlace p.allocPtr) c.boundary else c.firstPlace p.allocPtr
      else c.firstPlace p.allocPtr) = p.place c.size c.alignment c.boundary := by
    change _ = if 0 < c.boundary ∧ c.firstPlace p.allocPtr + c.size > align (c.firstPlace p.allocPtr) c.boundary then
      align (c.firstPlace p.allocPtr) c.boundary else c.firstPlace p.allocPtr
    by_cases hboundary : 0 < c.boundary
    · simp only [hboundary, if_true, true_and, c.align64_boundary hboundary hfirst, hadd _ hfirst]
    · simp only [hboundary, if_false, false_and]
  unfold MemoryPool.allocMem64 MemoryPool.allocMem
  simp only [hfirst64, hplace64, hadd _ hplace]

theorem place_eq (c : AllocCall) : p.place c.size c.alignment c.boundary =
    if 0 < c.boundary ∧ align (c.firstPlace p.allocPtr) c.boundary < c.firstPlace p.allocPtr + c.size then
      align (c.firstPlace p.allocPtr) c.boundary
    else c.firstPlace p.allocPtr := rfl

theorem le_firstPlace (c : AllocCall) (value : Nat) : value ≤ c.firstPlace value := by
  unfold firstPlace
  split
  · rename_i halign
    exact le_align halign
  · exact Nat.le_refl _

theorem dvd_firstPlace (halign : 0 < c.alignment) : c.alignment ∣ c.firstPlace value := by
  rw [firstPlace, if_pos halign]
  exact dvd_align

theorem firstPlace_le_of_admissible (h : c.Admissible addr) (hle : value ≤ addr) : c.firstPlace value ≤ addr := by
  unfold firstPlace
  split
  · rename_i halign
    exact align_le halign (h.aligned halign) hle
  · exact hle

theorem le_place (c : AllocCall) : p.allocPtr ≤ p.place c.size c.alignment c.boundary := by
  have hfirst := c.le_firstPlace p.allocPtr
  rw [place_eq]
  split
  · rename_i h
    exact hfirst.trans (le_align h.1)
  · exact hfirst

theorem admissible_place (c : AllocCall) : c.Admissible (p.place c.size c.alignment c.boundary) := by
  rw [place_eq]
  split
  · -- at a multiple of the boundary, which is one of the alignment too
    rename_i h
    refine ⟨fun halign => (c.boundary_dvd halign h.1).trans dvd_align, fun _ hsize m hm hlt => ?_, fun _ _ => dvd_align⟩
    have hdvd : c.boundary ∣ align (c.firstPlace p.allocPtr) c.boundary := dvd_align
    obtain ⟨i, hi⟩ := hdvd
    obtain ⟨j, rfl⟩ := hm
    rw [hi] at hlt ⊢
    have hlt : i + 1 ≤ j := Nat.lt_of_mul_lt_mul_left hlt
    calc c.boundary * i + c.size ≤ c.boundary * i + c.boundary := by omega
      _ = c.boundary * (i + 1) := rfl
      _ ≤ c.boundary * j := Nat.mul_le_mul_left _ hlt
  · rename_i h
    refine ⟨dvd_firstPlace, fun hboundary _ m hm hlt => ?_, fun hboundary hlarge => ?_⟩
    · have hnext := align_le hboundary hm hlt.le
      have hfits : c.firstPlace p.allocPtr + c.size ≤ align (c.firstPlace p.allocPtr) c.boundary := by
        by_contra hcross
        exact h ⟨hboundary, Nat.lt_of_not_le hcross⟩
      exact hfits.trans hnext
    · -- a larger block reaches the next multiple from everywhere
      have hnext : align (c.firstPlace p.allocPtr) c.boundary < c.firstPlace p.allocPtr + c.boundary := by
        have hle := Nat.div_mul_le_self (c.firstPlace p.allocPtr + c.boundary - 1) c.boundary
        unfold align
        omega
      exact absurd ⟨hboundary, by omega⟩ h

/-- There is no admissible place before. -/
theorem place_le_of_admissible (h : c.Admissible addr) (hle : p.allocPtr ≤ addr) :
    p.place c.size c.alignment c.boundary ≤ addr := by
  have hfirst := firstPlace_le_of_admissible h hle
  rw [place_eq]
  split
  · rename_i hcross
    by_cases hsize : c.size ≤ c.boundary
    · by_contra hlt
      have hwhole := h.whole hcross.1 hsize _ dvd_align (Nat.lt_of_not_le hlt)
      omega
    · exact align_le hcross.1 (h.begins hcross.1 (Nat.lt_of_not_le hsize)) hfirst
  · exact hfirst

theorem fits_iff (c : AllocCall) :
    c.Fits p.allocPtr last ↔ p.place c.size c.alignment c.boundary + c.size ≤ last := by
  constructor
  · intro h
    obtain ⟨addr, hfirst, hlast, hadmissible⟩ := h
    have hle := place_le_of_admissible hadmissible hfirst
    omega
  · intro h
    exact ⟨_, c.le_place, h, c.admissible_place⟩

theorem place_eq_allocPtr_iff (c : AllocCall) :
    p.place c.size c.alignment c.boundary = p.allocPtr ↔ c.Admissible p.allocPtr := by
  constructor
  · intro h
    rw [← h]
    exact c.admissible_place
  · intro h
    exact Nat.le_antisymm (place_le_of_admissible h (Nat.le_refl _)) c.le_place

end AllocCall

/-! ## The calls one after another -/

namespace PoolState

variable {s : PoolState} {c : AllocCall}

theorem alloc_some {addr : Nat} {pool : MemoryPool}
    (h : s.pool.allocMem64 c.size c.alignment c.boundary = (some addr, pool)) :
    s.alloc c = ⟨pool, (addr, c) :: s.blocks⟩ := by
  rw [alloc, h]

theorem alloc_none {pool : MemoryPool} (h : s.pool.allocMem64 c.size c.alignment c.boundary = (none, pool)) :
    s.alloc c = ⟨pool, s.blocks⟩ := by
  rw [alloc, h]

/-- A call, by whether there is a place from the pointer on. -/
theorem alloc_cases (hptr : s.pool.allocPtr ≤ 2 ^ 63) :
    (c.Fits s.pool.allocPtr s.poolEnd ∧ (s.pool.allocMem64 c.size c.alignment c.boundary).1 ≠ none ∧
      s.alloc c = ⟨{ s.pool with allocPtr := s.pool.place c.size c.alignment c.boundary + c.size },
        (s.pool.place c.size c.alignment c.boundary, c) :: s.blocks⟩) ∨
    (¬ c.Fits s.pool.allocPtr s.poolEnd ∧ (s.pool.allocMem64 c.size c.alignment c.boundary).1 = none ∧
      s.alloc c = ⟨{ s.pool with allocPtr := s.pool.place c.size c.alignment c.boundary }, s.blocks⟩) := by
  by_cases h : s.pool.place c.size c.alignment c.boundary + c.size ≤ s.poolEnd
  · have hrun : s.pool.allocMem64 c.size c.alignment c.boundary =
        (some (s.pool.place c.size c.alignment c.boundary),
          { s.pool with allocPtr := s.pool.place c.size c.alignment c.boundary + c.size }) :=
      (c.allocMem64_eq hptr).trans (if_neg (Nat.not_lt.mpr h))
    refine .inl ⟨c.fits_iff.mpr h, ?_, alloc_some hrun⟩
    rw [hrun]
    exact Option.some_ne_none _
  · have hrun : s.pool.allocMem64 c.size c.alignment c.boundary =
        (none, { s.pool with allocPtr := s.pool.place c.size c.alignment c.boundary }) :=
      (c.allocMem64_eq hptr).trans (if_pos (Nat.lt_of_not_le h))
    exact .inr ⟨mt c.fits_iff.mp h, congrArg Prod.fst hrun, alloc_none hrun⟩

/-- What every call preserves. -/
structure Inv (s : PoolState) : Prop where
  low : s.poolEnd ≤ 2 ^ 63
  ptr_le : s.pool.allocPtr ≤ 2 ^ 63
  base_le : s.pool.memoryPool ≤ s.top
  top_le : s.top ≤ s.pool.allocPtr
  top_le_end : s.top ≤ s.poolEnd
  used : (Pool.mk (Set.Ico s.pool.memoryPool s.pool.allocPtr) (s.blocks.map region)).Sound
  inside : ∀ b ∈ s.blocks, s.pool.memoryPool ≤ b.1 ∧ b.1 + b.2.size ≤ s.poolEnd
  admissible : ∀ b ∈ s.blocks, b.2.Admissible b.1

theorem Inv.good (h : s.Inv) : s.Good := ⟨h.inside, h.admissible, h.used.disjoint⟩

theorem Start.inv (h : s.Start) : s.Inv := by
  obtain ⟨hlow, hptr, hblocks⟩ := h
  have htop : s.top = s.pool.memoryPool := by
    unfold top
    rw [hblocks]
  refine ⟨hlow, by omega, htop.ge, by omega, ?_, ?_, ?_, ?_⟩
  · rw [htop]
    exact Nat.le_add_right _ _
  · rw [hblocks]
    exact ⟨by simp, List.Pairwise.nil⟩
  · simp [hblocks]
  · simp [hblocks]

/-- In the terms of pools: the rounding takes addresses out of use, and the block is taken behind them. -/
theorem Inv.alloc (h : s.Inv) : (s.alloc c).Inv := by
  have hplace := c.le_place (p := s.pool)
  have hbase := h.base_le.trans h.top_le
  have hend := h.low
  have hgap := h.used.step (.mark (Set.Ico s.pool.allocPtr (s.pool.place c.size c.alignment c.boundary)))
  dsimp only at hgap
  rw [Set.Ico_union_Ico_eq_Ico hbase hplace] at hgap
  rcases alloc_cases (c := c) h.ptr_le with ⟨hfits, -, heq⟩ | ⟨hfits, -, heq⟩
  · rw [c.fits_iff] at hfits
    rw [heq]
    refine ⟨h.low, hfits.trans h.low, hbase.trans (hplace.trans (Nat.le_add_right _ _)), Nat.le_refl _, hfits,
      ?_, ?_, ?_⟩
    · have hfresh : Disjoint (region (s.pool.place c.size c.alignment c.boundary, c))
          (Set.Ico s.pool.memoryPool (s.pool.place c.size c.alignment c.boundary)) :=
        Set.Ico_disjoint_Ico_same.symm
      have htake := hgap.step (.take _ hfresh)
      dsimp only [region] at htake
      rw [Set.Ico_union_Ico_eq_Ico (hbase.trans hplace) (Nat.le_add_right _ _)] at htake
      exact htake
    · intro b hb
      rcases List.mem_cons.mp hb with rfl | hb
      · exact ⟨hbase.trans hplace, hfits⟩
      · exact h.inside b hb
    · intro b hb
      rcases List.mem_cons.mp hb with rfl | hb
      · exact c.admissible_place
      · exact h.admissible b hb
  · rw [heq]
    exact ⟨h.low, c.place_le h.ptr_le, h.base_le, h.top_le.trans hplace, h.top_le_end, hgap, h.inside, h.admissible⟩

/-- All calls succeed for which there is a place as long as the pointer is where the last block ends. -/
theorem Inv.open_iff (h : s.Inv) : s.Open ↔ s.pool.allocPtr = s.top := by
  constructor
  · intro hopen
    by_contra hmoved
    have hlow := h.low
    have htop := h.top_le
    have hend := h.top_le_end
    have hsize : s.poolEnd - s.top < 2 ^ 63 := by
      have hbase := h.base_le
      unfold poolEnd kMemoryPollSize
      omega
    -- the rest of the pool, wherever it begins
    let c : AllocCall := ⟨s.poolEnd - s.top, 0, 0, hsize, .inl rfl, .inl rfl, fun h => absurd h (by decide)⟩
    have hfits : c.Fits s.top s.poolEnd := by
      refine ⟨s.top, Nat.le_refl _, ?_, fun h => absurd h (Nat.lt_irrefl 0), fun h => absurd h (Nat.lt_irrefl 0),
        fun h => absurd h (Nat.lt_irrefl 0)⟩
      change s.top + (s.poolEnd - s.top) ≤ s.poolEnd
      omega
    rcases alloc_cases (c := c) h.ptr_le with ⟨⟨addr, hfirst, hlast, -⟩, -, -⟩ | ⟨-, hnone, -⟩
    · change addr + (s.poolEnd - s.top) ≤ s.poolEnd at hlast
      omega
    · exact hopen c hfits hnone
  · intro hptr c hfits
    rw [← hptr] at hfits
    rcases alloc_cases (c := c) h.ptr_le with ⟨-, hsome, -⟩ | ⟨hnot, -, -⟩
    · exact hsome
    · exact absurd hfits hnot

/-- A call leaves the pool open when it fits or does not move the pointer. -/
theorem Inv.open_alloc_iff (h : s.Inv) (hopen : s.Open) : (s.alloc c).Open ↔ s.Guard c := by
  rw [h.alloc.open_iff]
  rw [h.open_iff] at hopen
  unfold Guard
  rcases alloc_cases (c := c) h.ptr_le with ⟨hfits, -, heq⟩ | ⟨hfits, -, heq⟩
  · rw [heq]
    exact iff_of_true rfl (.inl hfits)
  · rw [heq, ← c.place_eq_allocPtr_iff]
    change _ = s.top ↔ _
    rw [← hopen]
    exact (or_iff_right hfits).symm

/-- **The blocks of the pool.**  In every run the blocks are apart, in the pool, aligned and on one side of each
multiple of their boundary.  Where each call fits or leaves the pointer where it is, every later call succeeds for
which there is a place behind the last block, and the next call keeps it so exactly when it does the same. -/
theorem alloc_run (h : Reachable Start (GuardedStep (fun s c t => t = s.alloc c) Guard) s) :
    s.Good ∧ s.Open ∧ ∀ c : AllocCall, (s.alloc c).Good ∧ ((s.alloc c).Open ↔ s.Guard c) := by
  have hboth : s.Inv ∧ s.Open := by
    apply h.invariant
    · intro s hstart
      have htop : s.pool.allocPtr = s.top := by
        unfold top
        rw [hstart.2.2]
        exact hstart.2.1
      exact ⟨hstart.inv, hstart.inv.open_iff.mpr htop⟩
    · intro s t hs hstep
      obtain ⟨c, hguard, rfl⟩ := hstep
      exact ⟨hs.1.alloc, (hs.1.open_alloc_iff hs.2).mpr hguard⟩
  exact ⟨hboth.1.good, hboth.2, fun c => ⟨hboth.1.alloc.good, hboth.1.open_alloc_iff hboth.2⟩⟩

/-- The blocks are as they should be in the other runs too. -/
theorem good_of_reachable (h : Reachable Start (GuardedStep (fun s c t => t = s.alloc c) fun _ _ => True) s) :
    s.Good := by
  have hinv : s.Inv := by
    apply h.invariant
    · exact fun s hstart => hstart.inv
    · intro s t hs hstep
      obtain ⟨c, -, rfl⟩ := hstep
      exact hs.alloc
  exact hinv.good

/-- The pool right behind the first megabyte. -/
def freshPool : PoolState := ⟨⟨0x100000, 0x100000, by decide⟩, []⟩

theorem freshPool_start : freshPool.Start := ⟨by decide, rfl, rfl⟩

/-- A ring of 32 TRBs. -/
def ringCall : AllocCall :=
  ⟨512, 64, 65536, by decide, .inr ⟨6, by decide, rfl⟩, .inr ⟨16, by decide, rfl⟩, by decide⟩

/-- One byte, aligned to two gigabytes. -/
def hugeAlignment : AllocCall :=
  ⟨1, 2 ^ 31, 0, by decide, .inr ⟨31, by decide, rfl⟩, .inl rfl, by decide⟩

def oneByte : AllocCall := ⟨1, 0, 0, by decide, .inl rfl, .inl rfl, by decide⟩

theorem alloc_run_ring : (freshPool.alloc ringCall).Good ∧ (freshPool.alloc ringCall).Open := by
  have hfits : ringCall.Fits freshPool.pool.allocPtr freshPool.poolEnd := ringCall.fits_iff.mpr (by decide)
  have hrun := alloc_run (.next (.start freshPool_start) ⟨ringCall, .inl hfits, rfl⟩)
  exact ⟨hrun.1, hrun.2.1⟩

/-- After a call that fails there is no byte left in a pool without any block. -/
theorem alloc_run_hugeAlignment :
    ∃ s, Reachable Start (GuardedStep (fun s c t => t = s.alloc c) fun _ _ => True) s ∧ s.blocks = [] ∧
      oneByte.Fits s.top s.poolEnd ∧ (s.pool.allocMem64 1 0 0).1 = none := by
  refine ⟨freshPool.alloc hugeAlignment, .next (.start freshPool_start) ⟨hugeAlignment, trivial, rfl⟩, ?_, ?_, ?_⟩
  · decide
  · have hanywhere : oneByte.Admissible 0x100000 :=
      ⟨fun h => absurd h (Nat.lt_irrefl 0), fun h => absurd h (Nat.lt_irrefl 0), fun h => absurd h (Nat.lt_irrefl 0)⟩
    exact ⟨0x100000, by decide, by decide, hanywhere⟩
  · decide

end PoolState

end MikanSaos
