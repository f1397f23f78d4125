import MikanSaos.Reasoning.ByteMemory
import Mathlib.Logic.Function.Basic

/-!
# AcpiTables — the way from the RSDP to the FADT

Every table has a signature and a checksum: its bytes add up to zero.  `Initialize` takes the first table of the XSDT
that is a valid FADT.
-/

open Reasoning

namespace MikanSaos.Acpi

/-- `SumBytes` -/
def sumBytes (mem : ByteMemory) (data : Address) (bytes : Nat) : BitVec 8 :=
  (List.range bytes).foldl (fun sum i => sum + mem (data + BitVec.ofNat 64 i)) 0

/-- `strncmp(s, t, n) == 0`, from character `i` on. -/
def sameChars (s t : Nat → BitVec 8) (i : Nat) : Nat → Bool
  | 0 => true
  | n + 1 => s i = t i && (s i = 0 || sameChars s t (i + 1) n)

/-- `strncmp(signature, expected_signature, n) == 0`, for the signature that a table begins with. -/
def hasSignature (mem : ByteMemory) (table : Address) (expectedSignature : List (BitVec 8)) (n : Nat) : Bool :=
  sameChars (fun i => mem (table + BitVec.ofNat 64 i)) (expectedSignature.getD · 0) 0 n

/-- `"RSD PTR "` -/
def kRsdPtr : List (BitVec 8) := [0x52, 0x53, 0x44, 0x20, 0x50, 0x54, 0x52, 0x20]

/-- `"XSDT"` -/
def kXsdt : List (BitVec 8) := [0x58, 0x53, 0x44, 0x54]

/-- `"FACP"`, the signature of the FADT -/
def kFacp : List (BitVec 8) := [0x46, 0x41, 0x43, 0x50]

/-! ## The RSDP -/

def kRsdpBytes : Nat := 36

/-- `RSDP::IsValid` -/
def rsdpIsValid (mem : ByteMemory) (rsdp : Address) : Bool :=
  hasSignature mem rsdp kRsdPtr 8 && mem (rsdp + BitVec.ofNat 64 15) = 2 && sumBytes mem rsdp 20 = 0 &&
    sumBytes mem rsdp kRsdpBytes = 0

def xsdtAddress (mem : ByteMemory) (rsdp : Address) : Address := mem.loadWord (rsdp + BitVec.ofNat 64 24)

/-! ## The other tables -/

/-- `sizeof(DescriptionHeader)` -/
def kHeaderBytes : Nat := 36

def length (mem : ByteMemory) (header : Address) : Nat := mem.loadNat (header + BitVec.ofNat 64 4) 4

/-- `DescriptionHeader::IsValid` -/
def isValid (mem : ByteMemory) (header : Address) (expectedSignature : List (BitVec 8)) : Bool :=
  hasSignature mem header expectedSignature 4 && sumBytes mem header (length mem header) = 0

/-- `XSDT::Count`; the difference is a `size_t`. -/
def count (mem : ByteMemory) (xsdt : Address) : Nat :=
  (BitVec.ofNat 64 (length mem xsdt) - BitVec.ofNat 64 kHeaderBytes).toNat / 8

/-- `xsdt[i]` -/
def entry (mem : ByteMemory) (xsdt : Address) (i : Nat) : Address :=
  mem.loadWord (xsdt + BitVec.ofNat 64 (kHeaderBytes + 8 * i))

/-- `Initialize`; `none` where it exits. -/
def initializeAcpi (mem : ByteMemory) (rsdp : Address) : Option Address :=
  if rsdpIsValid mem rsdp then
    let xsdt := xsdtAddress mem rsdp
    if isValid mem xsdt kXsdt then
      ((List.range (count mem xsdt)).map (entry mem xsdt)).find? (isValid mem · kFacp)
    else none
  else none

/-! ## One wrong byte -/

section Corruption

variable {mem mem' : ByteMemory} {data header rsdp fadt a : Address} {v : BitVec 8} {n i : Nat}

theorem sumBytes_succ (mem : ByteMemory) (data : Address) (n : Nat) :
    sumBytes mem data (n + 1) = sumBytes mem data n + mem (data + BitVec.ofNat 64 n) := by
  unfold sumBytes
  rw [List.range_succ, List.foldl_append, List.foldl_cons, List.foldl_nil]

theorem sumBytes_congr (h : ∀ i < n, mem (data + BitVec.ofNat 64 i) = mem' (data + BitVec.ofNat 64 i)) :
    sumBytes mem data n = sumBytes mem' data n := by
  induction n with
  | zero => rfl
  | succ n ih =>
    rw [sumBytes_succ, sumBytes_succ, h n (Nat.lt_succ_self n), ih fun i hi => h i (by omega)]

/-- Offsets in a block of at most 2^64 bytes are different addresses. -/
theorem add_ofNat_ne {i j : Nat} (h : i ≠ j) (hi : i < 2 ^ 64) (hj : j < 2 ^ 64) :
    data + BitVec.ofNat 64 i ≠ data + BitVec.ofNat 64 j := by
  intro heq
  apply h
  bv_omega

/-- What a sum of bytes makes of one that is replaced. -/
theorem sumBytes_update (hi : i < n) (hn : n ≤ 2 ^ 64) (ha : a = data + BitVec.ofNat 64 i) :
    sumBytes (Function.update mem a v) data n + mem a = sumBytes mem data n + v := by
  induction n with
  | zero => exact absurd hi (Nat.not_lt_zero i)
  | succ n ih =>
    rw [sumBytes_succ, sumBytes_succ]
    rcases Nat.lt_succ_iff_lt_or_eq.mp hi with hlt | heq
    · have hne : data + BitVec.ofNat 64 n ≠ a := by
        rw [ha]
        exact add_ofNat_ne (by omega) (by omega) (by omega)
      have hrest := ih hlt (by omega)
      rw [Function.update_of_ne hne, add_right_comm, hrest, add_right_comm]
    · have hkept : sumBytes (Function.update mem a v) data n = sumBytes mem data n := by
        apply sumBytes_congr
        intro j hj
        have hne : data + BitVec.ofNat 64 j ≠ a := by
          rw [ha]
          exact add_ofNat_ne (by omega) (by omega) (by omega)
        exact Function.update_of_ne hne _ _
      have hlast : data + BitVec.ofNat 64 n = a := by rw [ha, heq]
      rw [hkept, hlast, Function.update_self, add_right_comm]

/-- A sum that was right is wrong when one byte is. -/
theorem sumBytes_corrupted (hsum : sumBytes mem data n = 0) (hi : i < n) (hn : n ≤ 2 ^ 64)
    (ha : a = data + BitVec.ofNat 64 i) (hv : v ≠ mem a) : sumBytes (Function.update mem a v) data n ≠ 0 := by
  intro hzero
  have hupdate := @sumBytes_update mem data a v n i hi hn ha
  rw [hzero, hsum] at hupdate
  apply hv
  bv_omega

theorem length_lt (mem : ByteMemory) (header : Address) : length mem header < 2 ^ 32 := by
  unfold length
  generalize header + BitVec.ofNat 64 4 = a
  simp only [ByteMemory.loadNat]
  have h₀ := (mem a).isLt
  have h₁ := (mem (a + 1)).isLt
  have h₂ := (mem (a + 1 + 1)).isLt
  have h₃ := (mem (a + 1 + 1 + 1)).isLt
  omega

/-- The bytes under the checksum of a table, but for those of its length. -/
def Covered (mem : ByteMemory) (header a : Address) : Prop :=
  ∃ i < length mem header, (i < 4 ∨ 8 ≤ i) ∧ a = header + BitVec.ofNat 64 i

theorem rsdpIsValid_corrupted (h : rsdpIsValid mem rsdp = true) (ha : InBlock a rsdp kRsdpBytes) (hv : v ≠ mem a) :
    rsdpIsValid (Function.update mem a v) rsdp = false := by
  have hsum : sumBytes mem rsdp kRsdpBytes = 0 := by
    unfold rsdpIsValid at h
    rw [Bool.and_eq_true] at h
    exact of_decide_eq_true h.2
  have haddr : a = rsdp + BitVec.ofNat 64 (a - rsdp).toNat := by
    rw [BitVec.ofNat_toNat, BitVec.setWidth_eq]
    bv_omega
  have hwrong := sumBytes_corrupted hsum ha (by decide) haddr hv
  unfold rsdpIsValid
  rw [decide_eq_false hwrong, Bool.and_false]

theorem isValid_corrupted {signature : List (BitVec 8)} (h : isValid mem header signature = true)
    (ha : Covered mem header a) (hv : v ≠ mem a) : isValid (Function.update mem a v) header signature = false := by
  obtain ⟨i, hi, hplace, ha⟩ := ha
  have hlt := length_lt mem header
  have hlength : length (Function.update mem a v) header = length mem header := by
    unfold length
    apply ByteMemory.loadNat_congr
    intro j hj
    have hne : header + BitVec.ofNat 64 4 + BitVec.ofNat 64 j ≠ a := by
      rw [ha, BitVec.add_assoc, ← BitVec.ofNat_add]
      exact add_ofNat_ne (by omega) (by omega) (by omega)
    exact Function.update_of_ne hne _ _
  have hsum : sumBytes mem header (length mem header) = 0 := by
    unfold isValid at h
    rw [Bool.and_eq_true] at h
    exact of_decide_eq_true h.2
  have hwrong := sumBytes_corrupted hsum hi (by omega) ha hv
  unfold isValid
  rw [hlength, decide_eq_false hwrong, Bool.and_false]

theorem xsdtAddress_update (ha : ¬ InBlock a rsdp kRsdpBytes) :
    xsdtAddress (Function.update mem a v) rsdp = xsdtAddress mem rsdp := by
  apply ByteMemory.loadWord_congr
  intro x hx
  have hne : x ≠ a := by
    rintro rfl
    exact ha (hx.of_sub (by decide) (by decide))
  exact Function.update_of_ne hne _ _

/-- What holds of the table that `Initialize` takes. -/
theorem valid_of_initializeAcpi (h : initializeAcpi mem rsdp = some fadt) :
    rsdpIsValid mem rsdp = true ∧ isValid mem (xsdtAddress mem rsdp) kXsdt = true ∧ isValid mem fadt kFacp = true := by
  unfold initializeAcpi at h
  dsimp only at h
  by_cases hrsdp : rsdpIsValid mem rsdp = true
  · rw [if_pos hrsdp] at h
    by_cases hxsdt : isValid mem (xsdtAddress mem rsdp) kXsdt = true
    · rw [if_pos hxsdt] at h
      have hfadt := List.find?_some h
      exact ⟨hrsdp, hxsdt, hfadt⟩
    · rw [if_neg hxsdt] at h
      cases h
  · rw [if_neg hrsdp] at h
    cases h

/-- **One wrong byte is noticed.**  If `Initialize` finds a FADT, then with any other value in one byte of the RSDP, or
of the XSDT but for its length, it exits, and with one in the FADT but for its length it does not take that table. -/
theorem initializeAcpi_corrupted (h : initializeAcpi mem rsdp = some fadt) (hv : v ≠ mem a) :
    (InBlock a rsdp kRsdpBytes ∨ Covered mem (xsdtAddress mem rsdp) a →
      initializeAcpi (Function.update mem a v) rsdp = none) ∧
    (Covered mem fadt a → initializeAcpi (Function.update mem a v) rsdp ≠ some fadt) := by
  obtain ⟨hrsdp, hxsdt, hfadt⟩ := valid_of_initializeAcpi h
  constructor
  · intro ha
    by_cases hin : InBlock a rsdp kRsdpBytes
    · have hinvalid := rsdpIsValid_corrupted hrsdp hin hv
      unfold initializeAcpi
      rw [hinvalid]
      rfl
    · have hinvalid := isValid_corrupted hxsdt (ha.resolve_left hin) hv
      unfold initializeAcpi
      dsimp only
      rw [xsdtAddress_update hin, hinvalid]
      exact ite_self none
  · intro ha hsome
    have hvalid := (valid_of_initializeAcpi hsome).2.2
    rw [isValid_corrupted hfadt ha hv] at hvalid
    cases hvalid

end Corruption

/-- An RSDP at 0x1000, an XSDT with one entry at 0x2000, and a FADT of 116 bytes at 0x3000. -/
def exampleTables : ByteMemory := fun a =>
  match a.toNat with
  | 0x1000 => 0x52 | 0x1001 => 0x53 | 0x1002 => 0x44 | 0x1003 => 0x20
  | 0x1004 => 0x50 | 0x1005 => 0x54 | 0x1006 => 0x52 | 0x1007 => 0x20
  | 0x1008 => 223
  | 0x100f => 2
  | 0x1014 => 36
  | 0x1019 => 0x20
  | 0x1020 => 188
  | 0x2000 => 0x58 | 0x2001 => 0x53 | 0x2002 => 0x44 | 0x2003 => 0x54
  | 0x2004 => 44
  | 0x2009 => 97
  | 0x2025 => 0x30
  | 0x3000 => 0x46 | 0x3001 => 0x41 | 0x3002 => 0x43 | 0x3003 => 0x50
  | 0x3004 => 116
  | 0x3009 => 99
  | 0x304c => 0x08 | 0x304d => 0x06
  | 0x3071 => 1
  | _ => 0

theorem exampleTables_found : initializeAcpi exampleTables 0x1000 = some 0x3000 := by decide +kernel

/-- The 24-bit timer is not taken for one of 32 bits, and the other way round. -/
theorem exampleTables_corrupted : initializeAcpi (Function.update exampleTables 0x3071 0) 0x1000 ≠ some 0x3000 ∧
    initializeAcpi (Function.update exampleTables 0x2025 0x40) 0x1000 = none := by
  have hflags := initializeAcpi_corrupted (a := 0x3071) (v := 0) exampleTables_found (by decide)
  have hentry := initializeAcpi_corrupted (a := 0x2025) (v := 0x40) exampleTables_found (by decide)
  exact ⟨hflags.2 ⟨0x71, by decide +kernel, by decide, by decide⟩,
    hentry.1 (.inr ⟨0x25, by decide +kernel, by decide, by decide +kernel⟩)⟩

end MikanSaos.Acpi
