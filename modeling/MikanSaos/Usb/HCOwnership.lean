import Mathlib.Data.List.Basic

/-!
# HCOwnership — the search for the hand-off register of the BIOS

The extended capabilities of the controller form a list in its registers.  The specification of the controller
counts all offsets in words of 32 bits.  The search takes the first offset as a number of bytes, and adds the later
ones, already multiplied by four, to a pointer to registers of four bytes.
-/

namespace MikanSaos

/-- `hccp.bits.xhci_extended_capabilities_pointer` -/
def xhciExtendedCapabilitiesPointer (hccp : BitVec 32) : BitVec 16 := hccp.extractLsb' 16 16

namespace USBLEGSUP

def capabilityId (bitmap : BitVec 32) : BitVec 8 := bitmap.extractLsb' 0 8
def nextPointer (bitmap : BitVec 32) : BitVec 8 := bitmap.extractLsb' 8 8

end USBLEGSUP

open USBLEGSUP

/-- The loop over the registers: those that it reads, and the one it breaks out with.  `read` gives the values of
the registers, `0` is the null pointer. -/
def searchLoop (read : BitVec 64 → BitVec 32) : Nat → BitVec 64 → Option (List (BitVec 64) × Option (BitVec 64))
  | 0, _ => none
  | fuel + 1, extReg =>
    if extReg = 0#64 then some ([], none)
    else if capabilityId (read extReg) = 1#8 then some ([extReg], some extReg)
    else
      let next := if nextPointer (read extReg) = 0#8 then 0#64
        -- a register has four bytes
        else extReg + 4#64 * ((nextPointer (read extReg)).setWidth 64 <<< 2)
      (searchLoop read fuel next).map fun (visited, found) => (extReg :: visited, found)

/-- `RequestHCOwnership` up to the end of its loop. -/
def requestHCOwnership (read : BitVec 64 → BitVec 32) (mmioBase : BitVec 64) (hccp : BitVec 32) (fuel : Nat) :
    Option (List (BitVec 64) × Option (BitVec 64)) :=
  if xhciExtendedCapabilitiesPointer hccp = 0#16 then some ([], none)
  else searchLoop read fuel (mmioBase + (xhciExtendedCapabilitiesPointer hccp).setWidth 64)

/-! ## The list of the capabilities -/

/-- The headers from an address on, with offsets that count units of `unit` bytes. -/
inductive CapabilityList (read : BitVec 64 → BitVec 32) (unit : BitVec 64) : BitVec 64 → List (BitVec 64) → Prop
  | last {addr : BitVec 64} (h : nextPointer (read addr) = 0#8) : CapabilityList read unit addr [addr]
  | link {addr : BitVec 64} {rest : List (BitVec 64)} (h : nextPointer (read addr) ≠ 0#8)
      (hrest : CapabilityList read unit (addr + unit * (nextPointer (read addr)).setWidth 64) rest) :
      CapabilityList read unit addr (addr :: rest)

/-- The list that the specification of the controller describes. -/
def ExtendedCapabilities (read : BitVec 64 → BitVec 32) (mmioBase : BitVec 64) (hccp : BitVec 32)
    (headers : List (BitVec 64)) : Prop :=
  if xhciExtendedCapabilitiesPointer hccp = 0#16 then headers = []
  else CapabilityList read 4#64 (mmioBase + 4#64 * (xhciExtendedCapabilitiesPointer hccp).setWidth 64) headers

/-- The headers up to the first one with the id 1. -/
def upToLegacySupport (read : BitVec 64 → BitVec 32) : List (BitVec 64) → List (BitVec 64)
  | [] => []
  | addr :: rest => if capabilityId (read addr) = 1#8 then [addr] else addr :: upToLegacySupport read rest

/-- The first header with the id 1. -/
def legacySupport (read : BitVec 64 → BitVec 32) (headers : List (BitVec 64)) : Option (BitVec 64) :=
  headers.find? fun addr => capabilityId (read addr) = 1#8

variable {read : BitVec 64 → BitVec 32} {mmioBase addr : BitVec 64} {hccp : BitVec 32}
  {headers visited : List (BitVec 64)} {found : Option (BitVec 64)} {fuel : Nat}

/-! ## The loop -/

/-- The loop is right for offsets that count units of 16 bytes. -/
theorem searchLoop_eq (hlist : CapabilityList read 16#64 addr headers) (hnull : ∀ header ∈ headers, header ≠ 0#64) :
    searchLoop read (headers.length + 1) addr =
      some (upToLegacySupport read headers, legacySupport read headers) := by
  induction hlist with
  | @last addr h =>
    have hne := hnull addr List.mem_cons_self
    by_cases hid : capabilityId (read addr) = 1#8
    · simp [searchLoop, upToLegacySupport, legacySupport, hne, hid]
    · simp [searchLoop, upToLegacySupport, legacySupport, hne, hid, h]
  | @link addr rest h hrest ih =>
    have hne := hnull addr List.mem_cons_self
    have hscale : 4#64 * ((nextPointer (read addr)).setWidth 64 <<< 2) =
        16#64 * (nextPointer (read addr)).setWidth 64 := by
      have hunits : 4#64 * BitVec.twoPow 64 2 = 16#64 := by decide
      rw [BitVec.shiftLeft_eq_mul_twoPow, BitVec.mul_comm _ (BitVec.twoPow 64 2), ← BitVec.mul_assoc, hunits]
    have ih := ih fun header hheader => hnull header (List.mem_cons_of_mem _ hheader)
    by_cases hid : capabilityId (read addr) = 1#8
    · simp [searchLoop, upToLegacySupport, legacySupport, hne, hid]
    · rw [List.length_cons, searchLoop]
      simp [upToLegacySupport, legacySupport, hne, hid, h, hscale, ih]

/-- What the loop reads begins with the register it is given. -/
theorem searchLoop_head (h : searchLoop read fuel addr = some (visited, found)) :
    visited = [] ∨ ∃ rest, visited = addr :: rest := by
  cases fuel with
  | zero => cases h
  | succ fuel =>
    rw [searchLoop] at h
    split at h
    · exact .inl (Prod.mk.inj (Option.some.inj h)).1.symm
    · right
      split at h
      · exact ⟨[], (Prod.mk.inj (Option.some.inj h)).1.symm⟩
      · obtain ⟨later, -, hlater⟩ := Option.map_eq_some_iff.mp h
        exact ⟨later.1, (Prod.mk.inj hlater).1.symm⟩

/-- An offset in bytes and the same offset in words lead to one address only where there is no offset. -/
theorem pointer_eq_zero {pointer : BitVec 16}
    (h : mmioBase + pointer.setWidth 64 = mmioBase + 4#64 * pointer.setWidth 64) : pointer = 0#16 := by
  have hnat := congrArg BitVec.toNat ((BitVec.add_right_inj mmioBase).mp h)
  rw [BitVec.toNat_mul, BitVec.toNat_setWidth_of_le (by decide)] at hnat
  have hlt := pointer.isLt
  apply BitVec.eq_of_toNat_eq
  change pointer.toNat = 4 * pointer.toNat % 2 ^ 64 at hnat
  change pointer.toNat = 0
  omega

theorem upToLegacySupport_head {unit : BitVec 64} (hlist : CapabilityList read unit addr headers) :
    ∃ rest, upToLegacySupport read headers = addr :: rest := by
  obtain ⟨rest, rfl⟩ : ∃ rest, headers = addr :: rest := by
    cases hlist with
    | last => exact ⟨[], rfl⟩
    | link => exact ⟨_, rfl⟩
  rw [upToLegacySupport]
  split
  · exact ⟨[], rfl⟩
  · exact ⟨_, rfl⟩

/-- The first header is four times as far from the base as the first register that is read. -/
theorem requestHCOwnership_misses (hlist : ExtendedCapabilities read mmioBase hccp headers)
    (hpointer : xhciExtendedCapabilitiesPointer hccp ≠ 0#16)
    (h : requestHCOwnership read mmioBase hccp fuel = some (visited, found)) :
    visited ≠ upToLegacySupport read headers := by
  rw [ExtendedCapabilities, if_neg hpointer] at hlist
  rw [requestHCOwnership, if_neg hpointer] at h
  obtain ⟨rest, hheaders⟩ := upToLegacySupport_head hlist
  rw [hheaders]
  intro heq
  cases searchLoop_head h with
  | inl hnil => rw [hnil] at heq; cases heq
  | inr hcons =>
    obtain ⟨later, hcons⟩ := hcons
    rw [hcons] at heq
    exact hpointer (pointer_eq_zero (List.cons.inj heq).1)

/-- **The search finds the list of no controller.**  It reads the headers of the list up to the register it looks
for, and finds that register, only where there are no extended capabilities. -/
theorem requestHCOwnership_right_iff (hlist : ExtendedCapabilities read mmioBase hccp headers) :
    (∃ fuel, requestHCOwnership read mmioBase hccp fuel =
      some (upToLegacySupport read headers, legacySupport read headers)) ↔
    xhciExtendedCapabilitiesPointer hccp = 0#16 := by
  constructor
  · intro h
    obtain ⟨fuel, h⟩ := h
    by_contra hpointer
    exact requestHCOwnership_misses hlist hpointer h rfl
  · intro hpointer
    rw [ExtendedCapabilities, if_pos hpointer] at hlist
    rw [hlist]
    refine ⟨0, ?_⟩
    rw [requestHCOwnership, if_pos hpointer]
    rfl

/-- A controller whose first capability, the one for the hand-off, is 32 words behind the base. -/
def legacyController (addr : BitVec 64) : BitVec 32 :=
  if addr = 0xfebf0080#64 then 0x00010001#32 else 0

theorem legacyController_list :
    ExtendedCapabilities legacyController 0xfebf0000#64 0x00200000#32 [0xfebf0080#64] := by
  have hpointer : xhciExtendedCapabilitiesPointer 0x00200000#32 ≠ 0#16 := by decide
  rw [ExtendedCapabilities, if_neg hpointer]
  exact .last (by decide)

/-- Its hand-off register is not found. -/
theorem requestHCOwnership_right_legacyController :
    ¬ ∃ fuel, requestHCOwnership legacyController 0xfebf0000#64 0x00200000#32 fuel =
      some (upToLegacySupport legacyController [0xfebf0080#64],
        legacySupport legacyController [0xfebf0080#64]) :=
  (requestHCOwnership_right_iff legacyController_list).not.mpr (by decide)

/-- The search reads one register, 32 bytes behind the base, and gives up. -/
theorem requestHCOwnership_legacyController :
    ExtendedCapabilities legacyController 0xfebf0000#64 0x00200000#32 [0xfebf0080#64] ∧
    requestHCOwnership legacyController 0xfebf0000#64 0x00200000#32 2 = some ([0xfebf0020#64], none) ∧
    ¬ ∃ fuel, requestHCOwnership legacyController 0xfebf0000#64 0x00200000#32 fuel =
      some (upToLegacySupport legacyController [0xfebf0080#64],
        legacySupport legacyController [0xfebf0080#64]) := by
  refine ⟨legacyController_list, by decide, ?_⟩
  intro h
  obtain ⟨fuel, h⟩ := h
  exact requestHCOwnership_misses legacyController_list (by decide) h rfl

end MikanSaos
