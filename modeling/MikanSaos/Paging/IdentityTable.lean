import MikanSaos.Memory.MarkCalls
import MikanSaos.Paging.Machine
import MikanSaos.Reasoning.CellWrites

/-!
# IdentityTable — `SetupIdentityPageTable`, and the frames that the kernel can use

The tables are static arrays of 64-bit words.  The walk reads them as the processor does; where they map
all that the frame allocator hands out depends on the memory map alone.
-/

open Reasoning

namespace MikanSaos

def kPageDirectoryCount : Nat := 64

def kPageSize4K : Nat := 4096
def kPageSize2M : Nat := 512 * kPageSize4K
def kPageSize1G : Nat := 512 * kPageSize2M

/-- The addresses of the three static tables, which the linker chooses: whole pages of the 52-bit physical
addresses, of which no two are the same. -/
structure StaticTables where
  pml4Table : Nat
  pdpTable : Nat
  pageDirectory : Nat
  pml4Table_aligned : pml4Table % kPageSize4K = 0
  pdpTable_aligned : pdpTable % kPageSize4K = 0
  pageDirectory_aligned : pageDirectory % kPageSize4K = 0
  pml4Table_ne : pml4Table ≠ pdpTable
  pml4Table_apart : pml4Table < pageDirectory ∨ pageDirectory + kPageDirectoryCount * kPageSize4K ≤ pml4Table
  pdpTable_apart : pdpTable < pageDirectory ∨ pageDirectory + kPageDirectoryCount * kPageSize4K ≤ pdpTable
  pdpTable_lt : pdpTable < 2 ^ 52
  pageDirectory_le : pageDirectory + kPageDirectoryCount * kPageSize4K ≤ 2 ^ 52

namespace StaticTables

/-- Static arrays are zero at first. -/
def Cleared (t : StaticTables) (words : Nat → Nat) : Prop :=
  ∀ i < 512, words (t.pml4Table + 8 * i) = 0 ∧ words (t.pdpTable + 8 * i) = 0

def setupIdentityPageTable (t : StaticTables) (words : Nat → Nat) : Nat → Nat :=
  let words := Function.update words t.pml4Table (t.pdpTable ||| 0x3)
  (List.range kPageDirectoryCount).foldl (fun words iPdpt =>
    let words := Function.update words (t.pdpTable + 8 * iPdpt) (t.pageDirectory + 4096 * iPdpt ||| 0x3)
    (List.range 512).foldl (fun words iPd =>
      Function.update words (t.pageDirectory + 4096 * iPdpt + 8 * iPd)
        (iPdpt * kPageSize1G + iPd * kPageSize2M ||| 0x83)) words) words

end StaticTables

/-! ## The walk of the processor -/

namespace PageWord

def present (word : Nat) : Bool := word.testBit 0
def pageSize (word : Nat) : Bool := word.testBit 7

/-- The physical address in bits `width` to 51. -/
def address (word width : Nat) : Nat := word / 2 ^ width % 2 ^ (52 - width) * 2 ^ width

end PageWord

open PageWord LinearAddress4Level in
/-- The physical address that a linear address is translated to. -/
def pageWalk (words : Nat → Nat) (cr3 vaddr : Nat) : Option Nat :=
  let e4 := words (cr3 + 8 * part vaddr 4)
  if ¬ present e4 then none
  else
    let e3 := words (address e4 12 + 8 * part vaddr 3)
    if ¬ present e3 then none
    else if pageSize e3 then some (address e3 30 + vaddr % 2 ^ 30)
    else
      let e2 := words (address e3 12 + 8 * part vaddr 2)
      if ¬ present e2 then none
      else if pageSize e2 then some (address e2 21 + vaddr % 2 ^ 21)
      else
        let e1 := words (address e2 12 + 8 * part vaddr 1)
        if ¬ present e1 then none else some (address e1 12 + vaddr % 2 ^ 12)

/-- Every byte of the frame is at its own address. -/
def IdentityMapped (words : Nat → Nat) (cr3 f : Nat) : Prop :=
  ∀ offset < kBytesPerFrame,
    pageWalk words cr3 (f * kBytesPerFrame + offset) = some (f * kBytesPerFrame + offset)

/-! ## What the tables hold -/

namespace PageWord

variable {base : Nat}

/-- `| 0x3` on the address of a table: present and writable. -/
theorem table_fields (haligned : base % 4096 = 0) (hlt : base < 2 ^ 52) :
    present (base ||| 0x3) = true ∧ pageSize (base ||| 0x3) = false ∧ address (base ||| 0x3) 12 = base := by
  have hword : base ||| 0x3 = base + 3 := by
    have hor := Nat.two_pow_add_eq_or_of_lt (b := 3) (i := 12) (by decide) (base / 4096)
    have hbase : 2 ^ 12 * (base / 4096) = base := by omega
    rw [hbase] at hor
    exact hor.symm
  rw [hword]
  unfold present pageSize address
  simp only [Nat.testBit_eq_decide_div_mod_eq, decide_eq_true_eq, decide_eq_false_iff_not]
  omega

/-- `| 0x83` on the address of 2 MiB of memory: a page. -/
theorem page_fields (haligned : base % 2 ^ 21 = 0) (hlt : base < 2 ^ 52) :
    present (base ||| 0x83) = true ∧ pageSize (base ||| 0x83) = true ∧
      address (base ||| 0x83) 21 = base := by
  have hword : base ||| 0x83 = base + 0x83 := by
    have hor := Nat.two_pow_add_eq_or_of_lt (b := 0x83) (i := 21) (by decide) (base / 2 ^ 21)
    have hbase : 2 ^ 21 * (base / 2 ^ 21) = base := by omega
    rw [hbase] at hor
    exact hor.symm
  rw [hword]
  unfold present pageSize address
  simp only [Nat.testBit_eq_decide_div_mod_eq, decide_eq_true_eq]
  omega

end PageWord

namespace StaticTables

variable {t : StaticTables} {words : Nat → Nat} {i j : Nat}

/-- The stores of `SetupIdentityPageTable`, in order. -/
def identityWrites (t : StaticTables) : List (Nat × Nat) :=
  (t.pml4Table, t.pdpTable ||| 0x3) :: (List.range kPageDirectoryCount).flatMap fun i =>
    (t.pdpTable + 8 * i, t.pageDirectory + 4096 * i ||| 0x3) :: (List.range 512).map fun j =>
      (t.pageDirectory + 4096 * i + 8 * j, i * kPageSize1G + j * kPageSize2M ||| 0x83)

theorem setupIdentityPageTable_eq (t : StaticTables) (words : Nat → Nat) :
    t.setupIdentityPageTable words = writeCells words t.identityWrites := by
  rw [identityWrites, writeCells_cons, writeCells, List.foldl_flatMap]
  simp only [List.foldl_cons, List.foldl_map]
  rfl

theorem mem_identityWrites {w : Nat × Nat} : w ∈ t.identityWrites ↔
    w = (t.pml4Table, t.pdpTable ||| 0x3) ∨ ∃ i < kPageDirectoryCount,
      w = (t.pdpTable + 8 * i, t.pageDirectory + 4096 * i ||| 0x3) ∨ ∃ j < 512,
        w = (t.pageDirectory + 4096 * i + 8 * j, i * kPageSize1G + j * kPageSize2M ||| 0x83) := by
  unfold identityWrites
  simp only [List.mem_cons, List.mem_flatMap, List.mem_range, List.mem_map, eq_comm (b := w)]

/-- The tables after `SetupIdentityPageTable`, entry by entry. -/
structure Identity (t : StaticTables) (words : Nat → Nat) : Prop where
  pml4 : ∀ i < 512, words (t.pml4Table + 8 * i) = if i = 0 then t.pdpTable ||| 0x3 else 0
  pdp : ∀ i < 512, words (t.pdpTable + 8 * i) =
    if i < kPageDirectoryCount then t.pageDirectory + 4096 * i ||| 0x3 else 0
  directory : ∀ i < kPageDirectoryCount, ∀ j < 512,
    words (t.pageDirectory + 4096 * i + 8 * j) = i * kPageSize1G + j * kPageSize2M ||| 0x83

/-- A store among the three tables is to the entry that it is computed for, and to no other. -/
theorem setup_word {addr word : Nat} (hmem : (addr, word) ∈ t.identityWrites)
    (honly : ∀ w ∈ t.identityWrites, w.1 = addr → w.2 = word) :
    t.setupIdentityPageTable words addr = word := by
  rw [setupIdentityPageTable_eq]
  exact writeCells_of_mem ⟨_, hmem, rfl⟩ honly

theorem setup_untouched {addr : Nat} (hnone : ∀ w ∈ t.identityWrites, w.1 ≠ addr) :
    t.setupIdentityPageTable words addr = words addr := by
  rw [setupIdentityPageTable_eq]
  exact writeCells_of_ne hnone

section Stores

variable {w : Nat × Nat}

/-- No store to another table reaches the page map. -/
theorem write_pml4Table (hw : w ∈ t.identityWrites) (hi : i < 512) (haddr : w.1 = t.pml4Table + 8 * i) :
    i = 0 ∧ w.2 = t.pdpTable ||| 0x3 := by
  have hpml4 := t.pml4Table_aligned
  have hpdp := t.pdpTable_aligned
  have hdirectory := t.pageDirectory_aligned
  have hne := t.pml4Table_ne
  have hapart := t.pml4Table_apart
  unfold kPageSize4K at hpml4 hpdp hdirectory
  unfold kPageDirectoryCount kPageSize4K at hapart
  rcases mem_identityWrites.mp hw with rfl | ⟨i', hi', hw⟩
  · simp only at haddr
    exact ⟨by omega, rfl⟩
  · unfold kPageDirectoryCount at hi'
    rcases hw with rfl | ⟨j', hj', rfl⟩
    all_goals
      simp only at haddr
      omega

theorem write_pdpTable (hw : w ∈ t.identityWrites) (hi : i < 512) (haddr : w.1 = t.pdpTable + 8 * i) :
    i < kPageDirectoryCount ∧ w.2 = t.pageDirectory + 4096 * i ||| 0x3 := by
  have hpml4 := t.pml4Table_aligned
  have hpdp := t.pdpTable_aligned
  have hdirectory := t.pageDirectory_aligned
  have hne := t.pml4Table_ne
  have hapart := t.pdpTable_apart
  unfold kPageSize4K at hpml4 hpdp hdirectory
  unfold kPageDirectoryCount kPageSize4K at hapart
  rcases mem_identityWrites.mp hw with rfl | ⟨i', hi', rfl | ⟨j', hj', rfl⟩⟩
  · simp only at haddr
    omega
  · have hsame : i' = i := by
      simp only at haddr
      omega
    exact ⟨hsame ▸ hi', by rw [hsame]⟩
  · unfold kPageDirectoryCount at hi'
    simp only at haddr
    omega

theorem write_pageDirectory (hw : w ∈ t.identityWrites) (hi : i < kPageDirectoryCount) (hj : j < 512)
    (haddr : w.1 = t.pageDirectory + 4096 * i + 8 * j) :
    w.2 = i * kPageSize1G + j * kPageSize2M ||| 0x83 := by
  have hpml4 := t.pml4Table_apart
  have hpdp := t.pdpTable_apart
  have hpdpAligned := t.pdpTable_aligned
  have hdirectoryAligned := t.pageDirectory_aligned
  unfold kPageSize4K at hpdpAligned hdirectoryAligned
  unfold kPageDirectoryCount kPageSize4K at hpml4 hpdp
  unfold kPageDirectoryCount at hi
  rcases mem_identityWrites.mp hw with rfl | ⟨i', hi', rfl | ⟨j', hj', rfl⟩⟩
  · simp only at haddr
    omega
  · unfold kPageDirectoryCount at hi'
    simp only at haddr
    omega
  · have hsame : i' = i ∧ j' = j := by
      simp only at haddr
      omega
    rw [hsame.1, hsame.2]

end Stores

theorem setupIdentityPageTable_identity (hcleared : t.Cleared words) :
    t.Identity (t.setupIdentityPageTable words) where
  pml4 i hi := by
    split
    · rename_i hzero
      subst hzero
      apply setup_word
      · exact mem_identityWrites.mpr (.inl rfl)
      · intro w hw haddr
        exact (write_pml4Table hw hi haddr).2
    · rename_i hne
      rw [setup_untouched]
      · exact (hcleared i hi).1
      · intro w hw haddr
        exact hne (write_pml4Table hw hi haddr).1
  pdp i hi := by
    split
    · rename_i hlt
      apply setup_word
      · exact mem_identityWrites.mpr (.inr ⟨i, hlt, .inl rfl⟩)
      · intro w hw haddr
        exact (write_pdpTable hw hi haddr).2
    · rename_i hge
      rw [setup_untouched]
      · exact (hcleared i hi).2
      · intro w hw haddr
        exact hge (write_pdpTable hw hi haddr).1
  directory i hi j hj := by
    apply setup_word
    · exact mem_identityWrites.mpr (.inr ⟨i, hi, .inr ⟨j, hj, rfl⟩⟩)
    · intro w hw haddr
      exact write_pageDirectory hw hi hj haddr

end StaticTables

/-! ## The walk through these tables -/

section

variable {t : StaticTables} {words : Nat → Nat} {vaddr f : Nat}

open LinearAddress4Level

/-- Below 64 GiB the walk ends at the large page of the address. -/
theorem pageWalk_below (h : t.Identity words) (hlt : vaddr < kPageDirectoryCount * kPageSize1G) :
    pageWalk words t.pml4Table vaddr = some vaddr := by
  have hdirectoryLe := t.pageDirectory_le
  have hdirectoryAligned := t.pageDirectory_aligned
  unfold kPageSize4K at hdirectoryAligned
  unfold kPageDirectoryCount kPageSize4K at hdirectoryLe
  unfold kPageDirectoryCount kPageSize1G kPageSize2M kPageSize4K at hlt
  -- the indices at the three levels
  have hpart4 : part vaddr 4 = 0 := by
    show vaddr / 2 ^ 39 % 512 = 0
    omega
  have hpart3 : part vaddr 3 = vaddr / 2 ^ 30 := by
    show vaddr / 2 ^ 30 % 512 = vaddr / 2 ^ 30
    omega
  have hcount : vaddr / 2 ^ 30 < kPageDirectoryCount := by
    unfold kPageDirectoryCount
    omega
  have hpart2 : part vaddr 2 < 512 := Nat.mod_lt _ (by decide)
  -- the entries that they select
  obtain ⟨hpresent4, -, haddress4⟩ := PageWord.table_fields t.pdpTable_aligned t.pdpTable_lt
  have hbase3 : (t.pageDirectory + 4096 * (vaddr / 2 ^ 30)) % 4096 = 0 ∧
      t.pageDirectory + 4096 * (vaddr / 2 ^ 30) < 2 ^ 52 := by
    unfold kPageDirectoryCount at hcount
    omega
  obtain ⟨hpresent3, hsize3, haddress3⟩ := PageWord.table_fields hbase3.1 hbase3.2
  have hbase2 : vaddr / 2 ^ 30 * kPageSize1G + part vaddr 2 * kPageSize2M = vaddr / 2 ^ 21 * 2 ^ 21 := by
    show vaddr / 2 ^ 30 * kPageSize1G + vaddr / 2 ^ 21 % 512 * kPageSize2M = _
    unfold kPageSize1G kPageSize2M kPageSize4K
    omega
  have hbase21 : vaddr / 2 ^ 21 * 2 ^ 21 % 2 ^ 21 = 0 := Nat.mul_mod_left _ _
  obtain ⟨hpresent2, hsize2, haddress2⟩ := PageWord.page_fields hbase21 (by omega)
  have he4 := h.pml4 0 (by decide)
  have he3 := h.pdp (vaddr / 2 ^ 30) (by unfold kPageDirectoryCount at hcount; omega)
  have he2 := h.directory _ hcount _ hpart2
  rw [if_pos rfl] at he4
  rw [if_pos hcount] at he3
  rw [hbase2] at he2
  unfold pageWalk
  -- the entry of the page directory has its size bit, so that the walk ends there
  simp only [hpart4, hpart3, he4, he3, he2, hpresent4, haddress4, hpresent3, hsize3, haddress3, hpresent2,
    hsize2, haddress2, not_true_eq_false, if_false, if_true, Bool.false_eq_true]
  exact congrArg some (Nat.div_add_mod' vaddr (2 ^ 21))

/-- There is no entry for an address from 64 GiB on. -/
theorem pageWalk_above (h : t.Identity words) (hle : kPageDirectoryCount * kPageSize1G ≤ vaddr)
    (hlt : vaddr < 2 ^ 48) : pageWalk words t.pml4Table vaddr = none := by
  have hnone : PageWord.present 0 = false := rfl
  unfold kPageDirectoryCount kPageSize1G kPageSize2M kPageSize4K at hle
  have he4 := h.pml4 (part vaddr 4) (Nat.mod_lt _ (by decide))
  unfold pageWalk
  by_cases hpart4 : part vaddr 4 = 0
  · -- the page directories after the last one
    rw [if_pos hpart4] at he4
    have hge : ¬ part vaddr 3 < kPageDirectoryCount := by
      have hlow : vaddr / 2 ^ 39 % 512 = 0 := hpart4
      show ¬ vaddr / 2 ^ 30 % 512 < 64
      omega
    have he3 := h.pdp (part vaddr 3) (Nat.mod_lt _ (by decide))
    rw [if_neg hge] at he3
    obtain ⟨hpresent4, -, haddress4⟩ := PageWord.table_fields t.pdpTable_aligned t.pdpTable_lt
    simp only [he4, hpresent4, haddress4, he3, hnone, not_true_eq_false, not_false_eq_true, if_false, if_true,
      Bool.false_eq_true]
  · rw [if_neg hpart4] at he4
    simp only [he4, hnone, not_false_eq_true, if_true, Bool.false_eq_true]

theorem identityMapped_iff (h : t.Identity words) (hf : f < 2 ^ 36) :
    IdentityMapped words t.pml4Table f ↔ (f + 1) * kBytesPerFrame ≤ kPageDirectoryCount * kPageSize1G := by
  unfold IdentityMapped kBytesPerFrame
  constructor
  · intro hmapped
    by_contra hbeyond
    have hle : kPageDirectoryCount * kPageSize1G ≤ f * 4096 + 0 := by
      unfold kPageDirectoryCount kPageSize1G kPageSize2M kPageSize4K at *
      omega
    have hwalk := pageWalk_above h hle (by omega)
    rw [hmapped 0 (by decide)] at hwalk
    cases hwalk
  · intro hle offset hoffset
    apply pageWalk_below h
    omega

end

end MikanSaos
