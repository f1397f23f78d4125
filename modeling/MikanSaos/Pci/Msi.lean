import MikanSaos.Pci.ScanBus
import MikanSaos.Reasoning.BitFields

/-!
# Msi — the message that a device sends as its interrupt

A register of a device is read and written through two ports: one takes its address, the other its value.
`ConfigureMSIFixedDestination` looks for the MSI capability in the list of the device's capabilities and sets it up.
-/

open Reasoning

namespace MikanSaos.Pci

def makeAddress (bus device function regAddr : Nat) : Nat :=
  1 <<< 31 ||| bus <<< 16 ||| device <<< 11 ||| function <<< 8 ||| (regAddr &&& 0xfc)

/-- The address that was written last, and the registers behind all addresses. -/
structure ConfigPorts where
  address : Nat
  registers : Nat → Nat

/-- The address of a register of a device; `reg_addr` is a `uint8_t`. -/
def regAddress (dev : Device) (regAddr : Nat) : Nat := makeAddress dev.bus dev.device dev.function (regAddr % 256)

namespace ConfigPorts

def writeAddress (s : ConfigPorts) (address : Nat) : ConfigPorts := { s with address }

def writeData (s : ConfigPorts) (value : Nat) : ConfigPorts :=
  { s with registers := Function.update s.registers s.address value }

def readData (s : ConfigPorts) : Nat := s.registers s.address

def readConfReg (s : ConfigPorts) (dev : Device) (regAddr : Nat) : ConfigPorts × Nat :=
  let s := s.writeAddress (regAddress dev regAddr)
  (s, s.readData)

def writeConfReg (s : ConfigPorts) (dev : Device) (regAddr value : Nat) : ConfigPorts :=
  (s.writeAddress (regAddress dev regAddr)).writeData value

end ConfigPorts

/-! ## The capability -/

inductive MSITriggerMode where
  | kEdge | kLevel
  deriving DecidableEq, Repr

inductive MSIDeliveryMode where
  | kFixed | kLowestPriority | kSMI | kNMI | kINIT | kExtINT
  deriving DecidableEq, Repr

def MSIDeliveryMode.value : MSIDeliveryMode → Nat
  | kFixed => 0
  | kLowestPriority => 1
  | kSMI => 2
  | kNMI => 4
  | kINIT => 5
  | kExtINT => 7

def kCapabilityMSI : Nat := 0x05
def kCapabilityMSIX : Nat := 0x11

namespace MSICapability

def capId : BitField := ⟨0, 8⟩
def nextPtr : BitField := ⟨8, 8⟩
def msiEnable : BitField := ⟨16, 1⟩
def multiMsgCapable : BitField := ⟨17, 3⟩
def multiMsgEnable : BitField := ⟨20, 3⟩
def addr64Capable : BitField := ⟨23, 1⟩
def perVectorMaskCapable : BitField := ⟨24, 1⟩

end MSICapability

open MSICapability

structure MSICapability where
  header : Nat
  msgAddr : Nat
  msgUpperAddr : Nat
  msgData : Nat
  maskBits : Nat
  pendingBits : Nat

/-- `msg_data_addr` -/
def msgDataAddr (header capAddr : Nat) : Nat :=
  if BitField.get header addr64Capable = 1 then (capAddr + 12) % 256 else (capAddr + 8) % 256

namespace ConfigPorts

/-- `ReadMSICapability`.  A field that is not read is not written either. -/
def readMSICapability (s : ConfigPorts) (dev : Device) (capAddr : Nat) : ConfigPorts × MSICapability :=
  let (s, header) := s.readConfReg dev capAddr
  let (s, msgAddr) := s.readConfReg dev (capAddr + 4)
  let (s, msgUpperAddr) :=
    if BitField.get header addr64Capable = 1 then s.readConfReg dev (capAddr + 8) else (s, 0)
  let (s, msgData) := s.readConfReg dev (msgDataAddr header capAddr)
  if BitField.get header perVectorMaskCapable = 1 then
    let (s, maskBits) := s.readConfReg dev (msgDataAddr header capAddr + 4)
    let (s, pendingBits) := s.readConfReg dev (msgDataAddr header capAddr + 8)
    (s, ⟨header, msgAddr, msgUpperAddr, msgData, maskBits, pendingBits⟩)
  else (s, ⟨header, msgAddr, msgUpperAddr, msgData, 0, 0⟩)

/-- `WriteMSICapability` -/
def writeMSICapability (s : ConfigPorts) (dev : Device) (capAddr : Nat) (msiCap : MSICapability) : ConfigPorts :=
  let s := s.writeConfReg dev capAddr msiCap.header
  let s := s.writeConfReg dev (capAddr + 4) msiCap.msgAddr
  let s := if BitField.get msiCap.header addr64Capable = 1 then
      s.writeConfReg dev (capAddr + 8) msiCap.msgUpperAddr
    else s
  let s := s.writeConfReg dev (msgDataAddr msiCap.header capAddr) msiCap.msgData
  if BitField.get msiCap.header perVectorMaskCapable = 1 then
    let s := s.writeConfReg dev (msgDataAddr msiCap.header capAddr + 4) msiCap.maskBits
    s.writeConfReg dev (msgDataAddr msiCap.header capAddr + 8) msiCap.pendingBits
  else s

end ConfigPorts

/-! ## `ConfigureMSIFixedDestination` -/

/-- `msi_cap_addr` and `msix_cap_addr` after a capability -/
def noteCapability (read : Nat → Nat) (found : Nat × Nat) (capAddr : Nat) : Nat × Nat :=
  if BitField.get (read capAddr) capId = kCapabilityMSI then (capAddr, found.2)
  else if BitField.get (read capAddr) capId = kCapabilityMSIX then (found.1, capAddr)
  else found

/-- The loop over the list of the capabilities; it does not end where they form a circle. -/
def capabilityLoop (dev : Device) : Nat → ConfigPorts → Nat → Nat × Nat → Option (ConfigPorts × (Nat × Nat))
  | 0, _, _, _ => none
  | fuel + 1, s, capAddr, found =>
    if capAddr = 0 then some (s, found)
    else
      let (s, header) := s.readConfReg dev capAddr
      capabilityLoop dev fuel s (BitField.get header nextPtr) (noteCapability (fun _ => header) found capAddr)

def msgAddrOf (apicId : Nat) : Nat := 0xfee00000 ||| apicId <<< 12

def msgDataOf (trigger : MSITriggerMode) (delivery : MSIDeliveryMode) (vector : Nat) : Nat :=
  let msgData := delivery.value <<< 8 ||| vector
  if trigger = .kLevel then msgData ||| 0xc000 else msgData

/-- The header that is written -/
def enabledHeader (header numVectorExponent : Nat) : Nat :=
  let header := if BitField.get header multiMsgCapable ≤ numVectorExponent then
      BitField.set header multiMsgEnable (BitField.get header multiMsgCapable)
    else BitField.set header multiMsgEnable numVectorExponent
  BitField.set header msiEnable 1

def configureMSIFixedDestination (fuel : Nat) (s : ConfigPorts) (dev : Device) (apicId : Nat)
    (trigger : MSITriggerMode) (delivery : MSIDeliveryMode) (vector numVectorExponent : Nat) :
    Option (ConfigPorts × Error) :=
  let msgAddr := msgAddrOf apicId
  let msgData := msgDataOf trigger delivery vector
  let (s, pointer) := s.readConfReg dev 0x34
  (capabilityLoop dev fuel s (pointer % 256) (0, 0)).map fun (s, msiCapAddr, msixCapAddr) =>
    if msiCapAddr ≠ 0 then
      let (s, msiCap) := s.readMSICapability dev msiCapAddr
      (s.writeMSICapability dev msiCapAddr
        { msiCap with header := enabledHeader msiCap.header numVectorExponent, msgAddr, msgData }, .kSuccess)
    else if msixCapAddr ≠ 0 then (s, .kNotImplemented)
    else (s, .kNoPCIMSI)

/-! ## Addresses -/

/-- The numbers of a device that an address has room for. -/
structure Located (dev : Device) : Prop where
  bus : dev.bus < 256
  device : dev.device < 32
  function : dev.function < 8

section Msi

variable {dev other : Device} {s : ConfigPorts} {regs : Nat → Nat} {addr capAddr n m : Nat}
  {headers : List Nat}

theorem makeAddress_eq {bus device function regAddr : Nat} (hdevice : device < 32) (hfunction : function < 8)
    (hbus : bus < 256) (hreg : regAddr < 256) : makeAddress bus device function regAddr =
      2 ^ 31 + bus * 2 ^ 16 + device * 2 ^ 11 + function * 2 ^ 8 + regAddr / 4 * 4 := by
  have hmask : regAddr &&& 0xfc = regAddr / 4 * 4 :=
    (by decide +kernel : ∀ r < 256, r &&& 0xfc = r / 4 * 4) regAddr hreg
  have h₁ : function <<< 8 ||| regAddr / 4 * 4 = function <<< 8 + regAddr / 4 * 4 :=
    (Nat.shiftLeft_add_eq_or_of_lt (by omega) function).symm
  have h₂ : device <<< 11 ||| (function <<< 8 + regAddr / 4 * 4) = device <<< 11 + (function <<< 8 + regAddr / 4 * 4) :=
    (Nat.shiftLeft_add_eq_or_of_lt (by rw [Nat.shiftLeft_eq]; omega) device).symm
  have h₃ : bus <<< 16 ||| (device <<< 11 + (function <<< 8 + regAddr / 4 * 4)) =
      bus <<< 16 + (device <<< 11 + (function <<< 8 + regAddr / 4 * 4)) :=
    (Nat.shiftLeft_add_eq_or_of_lt (by rw [Nat.shiftLeft_eq, Nat.shiftLeft_eq]; omega) bus).symm
  have h₄ : 1 <<< 31 ||| (bus <<< 16 + (device <<< 11 + (function <<< 8 + regAddr / 4 * 4))) =
      1 <<< 31 + (bus <<< 16 + (device <<< 11 + (function <<< 8 + regAddr / 4 * 4))) :=
    (Nat.shiftLeft_add_eq_or_of_lt (by rw [Nat.shiftLeft_eq, Nat.shiftLeft_eq, Nat.shiftLeft_eq]; omega) 1).symm
  unfold makeAddress
  rw [hmask, Nat.or_assoc, Nat.or_assoc, Nat.or_assoc, h₁, h₂, h₃, h₄]
  simp only [Nat.shiftLeft_eq]
  omega

/-- Two registers share an address just if they are the same four bytes of the same device. -/
theorem regAddress_inj (hdev : Located dev) (hother : Located other) :
    regAddress dev n = regAddress other m ↔
      dev.bus = other.bus ∧ dev.device = other.device ∧ dev.function = other.function ∧
        n % 256 / 4 = m % 256 / 4 := by
  obtain ⟨hbus, hdevice, hfunction⟩ := hdev
  obtain ⟨hbus', hdevice', hfunction'⟩ := hother
  unfold regAddress
  rw [makeAddress_eq hdevice hfunction hbus (Nat.mod_lt _ (by decide)),
    makeAddress_eq hdevice' hfunction' hbus' (Nat.mod_lt _ (by decide))]
  omega

theorem regAddress_ne (hdev : Located dev) (h : n % 256 / 4 ≠ m % 256 / 4) : regAddress dev n ≠ regAddress dev m :=
  fun heq => h ((regAddress_inj hdev hdev).mp heq).2.2.2

/-! ## The list of the capabilities -/

/-- The capabilities from an address on. -/
inductive CapabilityChain (read : Nat → Nat) : Nat → List Nat → Prop
  | nil : CapabilityChain read 0 []
  | cons {addr : Nat} {rest : List Nat} (h : addr ≠ 0)
      (hrest : CapabilityChain read (BitField.get (read addr) nextPtr) rest) : CapabilityChain read addr (addr :: rest)

theorem capabilityLoop_eq (h : CapabilityChain (fun r => regs (regAddress dev r)) addr headers) :
    ∀ address found, ∃ latch, capabilityLoop dev (headers.length + 1) ⟨address, regs⟩ addr found =
      some (⟨latch, regs⟩, headers.foldl (noteCapability fun r => regs (regAddress dev r)) found) := by
  induction h with
  | nil => exact fun address found => ⟨address, rfl⟩
  | @cons addr rest hne hrest ih =>
    intro address found
    rw [List.length_cons, capabilityLoop, if_neg hne, List.foldl_cons]
    exact ih _ _

/-- The last capability with an id, or 0. -/
def lastWith (read : Nat → Nat) (id : Nat) (headers : List Nat) (start : Nat) : Nat :=
  headers.foldl (fun found capAddr => if BitField.get (read capAddr) capId = id then capAddr else found) start

theorem lastWith_mem (read : Nat → Nat) (id : Nat) (headers : List Nat) (start : Nat) :
    lastWith read id headers start = start ∨ lastWith read id headers start ∈ headers := by
  unfold lastWith
  induction headers generalizing start with
  | nil => exact .inl rfl
  | cons capAddr headers ih =>
    rw [List.foldl_cons]
    rcases ih (if BitField.get (read capAddr) capId = id then capAddr else start) with hnone | hmem
    · rw [hnone]
      split
      · exact .inr List.mem_cons_self
      · exact .inl rfl
    · exact .inr (List.mem_cons_of_mem _ hmem)

theorem foldl_noteCapability (read : Nat → Nat) (headers : List Nat) (found : Nat × Nat) :
    headers.foldl (noteCapability read) found =
      (lastWith read kCapabilityMSI headers found.1, lastWith read kCapabilityMSIX headers found.2) := by
  have hids : kCapabilityMSI ≠ kCapabilityMSIX := by decide
  unfold lastWith
  induction headers generalizing found with
  | nil => rfl
  | cons capAddr headers ih =>
    rw [List.foldl_cons, List.foldl_cons, List.foldl_cons, ih]
    unfold noteCapability
    by_cases hmsi : BitField.get (read capAddr) capId = kCapabilityMSI
    · rw [if_pos hmsi, if_pos hmsi, if_neg (hmsi ▸ hids)]
    · rw [if_neg hmsi, if_neg hmsi]
      by_cases hmsix : BitField.get (read capAddr) capId = kCapabilityMSIX
      · rw [if_pos hmsix, if_pos hmsix]
      · rw [if_neg hmsix, if_neg hmsix]

/-! ## The registers of the capability -/

theorem get_enabledHeader_of_apart {header : Nat} {f : BitField} (hcount : multiMsgEnable.Apart f)
    (henable : msiEnable.Apart f) : BitField.get (enabledHeader header n) f = BitField.get header f := by
  unfold enabledHeader
  dsimp only
  rw [BitField.get_set_of_apart henable]
  split <;> exact BitField.get_set_of_apart hcount

theorem get_enabledHeader_msiEnable (header : Nat) : BitField.get (enabledHeader header n) msiEnable = 1 :=
  BitField.get_set_self

/-- No more messages are enabled than the device has. -/
theorem get_enabledHeader_multiMsgEnable (header : Nat) :
    BitField.get (enabledHeader header n) multiMsgEnable = min (BitField.get header multiMsgCapable) n := by
  have hlt : BitField.get header multiMsgCapable < 8 := Nat.mod_lt _ (by decide)
  unfold enabledHeader
  dsimp only
  rw [BitField.get_set_of_apart (by decide)]
  split
  · rw [BitField.get_set_self]
    show BitField.get header multiMsgCapable % 8 = _
    omega
  · rw [BitField.get_set_self]
    show n % 8 = _
    omega

theorem readMSICapability_eq (s : ConfigPorts) (dev : Device) (capAddr : Nat) :
    ∃ latch, s.readMSICapability dev capAddr = (⟨latch, s.registers⟩,
      { header := s.registers (regAddress dev capAddr)
        msgAddr := s.registers (regAddress dev (capAddr + 4))
        msgUpperAddr := if BitField.get (s.registers (regAddress dev capAddr)) addr64Capable = 1 then
          s.registers (regAddress dev (capAddr + 8)) else 0
        msgData := s.registers (regAddress dev (msgDataAddr (s.registers (regAddress dev capAddr)) capAddr))
        maskBits := if BitField.get (s.registers (regAddress dev capAddr)) perVectorMaskCapable = 1 then
          s.registers (regAddress dev (msgDataAddr (s.registers (regAddress dev capAddr)) capAddr + 4)) else 0
        pendingBits := if BitField.get (s.registers (regAddress dev capAddr)) perVectorMaskCapable = 1 then
          s.registers (regAddress dev (msgDataAddr (s.registers (regAddress dev capAddr)) capAddr + 8)) else 0 }) := by
  unfold ConfigPorts.readMSICapability
  simp only [ConfigPorts.readConfReg, ConfigPorts.writeAddress, ConfigPorts.readData]
  by_cases hwide : BitField.get (s.registers (regAddress dev capAddr)) addr64Capable = 1
  · by_cases hmask : BitField.get (s.registers (regAddress dev capAddr)) perVectorMaskCapable = 1
    · simp only [hwide, hmask, reduceIte]
      exact ⟨_, rfl⟩
    · simp only [hwide, hmask, reduceIte]
      exact ⟨_, rfl⟩
  · by_cases hmask : BitField.get (s.registers (regAddress dev capAddr)) perVectorMaskCapable = 1
    · simp only [hwide, hmask, reduceIte]
      exact ⟨_, rfl⟩
    · simp only [hwide, hmask, reduceIte]
      exact ⟨_, rfl⟩

theorem msgDataAddr_cases (header : Nat) (hend : capAddr + 24 ≤ 256) :
    (BitField.get header addr64Capable = 1 ∧ msgDataAddr header capAddr = capAddr + 12) ∨
      (BitField.get header addr64Capable ≠ 1 ∧ msgDataAddr header capAddr = capAddr + 8) := by
  unfold msgDataAddr
  by_cases hwide : BitField.get header addr64Capable = 1
  · rw [if_pos hwide]
    exact .inl ⟨hwide, by omega⟩
  · rw [if_neg hwide]
    exact .inr ⟨hwide, by omega⟩

theorem msgDataAddr_enabledHeader (header capAddr : Nat) :
    msgDataAddr (enabledHeader header n) capAddr = msgDataAddr header capAddr := by
  unfold msgDataAddr
  rw [get_enabledHeader_of_apart (by decide) (by decide)]

theorem update_same {f : Nat → Nat} {a v : Nat} (h : f a = v) : Function.update f a v = f :=
  Function.update_eq_self_iff.mpr h.symm

/-- The registers after the capability has been read, changed and written.  What is written back as it was read keeps
its value. -/
theorem registers_writeMSICapability {msiCap : MSICapability} (hdev : Located dev) (hend : capAddr + 24 ≤ 256)
    (hupper : BitField.get msiCap.header addr64Capable = 1 →
      msiCap.msgUpperAddr = s.registers (regAddress dev (capAddr + 8)))
    (hmask : BitField.get msiCap.header perVectorMaskCapable = 1 →
      msiCap.maskBits = s.registers (regAddress dev (msgDataAddr msiCap.header capAddr + 4)) ∧
      msiCap.pendingBits = s.registers (regAddress dev (msgDataAddr msiCap.header capAddr + 8))) :
    (s.writeMSICapability dev capAddr msiCap).registers =
      Function.update (Function.update (Function.update s.registers
        (regAddress dev capAddr) msiCap.header)
        (regAddress dev (capAddr + 4)) msiCap.msgAddr)
        (regAddress dev (msgDataAddr msiCap.header capAddr)) msiCap.msgData := by
  have hdata := msgDataAddr_cases msiCap.header hend
  unfold ConfigPorts.writeMSICapability
  simp only [ConfigPorts.writeConfReg, ConfigPorts.writeAddress, ConfigPorts.writeData]
  generalize msgDataAddr msiCap.header capAddr = dataAddr at hdata hmask ⊢
  generalize hbase : Function.update (Function.update s.registers (regAddress dev capAddr) msiCap.header)
    (regAddress dev (capAddr + 4)) msiCap.msgAddr = base
  have hkept : ∀ r, r % 256 / 4 ≠ capAddr % 256 / 4 → r % 256 / 4 ≠ (capAddr + 4) % 256 / 4 →
      base (regAddress dev r) = s.registers (regAddress dev r) := by
    intro r hne hne'
    rw [← hbase, Function.update_of_ne (regAddress_ne hdev hne'), Function.update_of_ne (regAddress_ne hdev hne)]
  have hupper' : BitField.get msiCap.header addr64Capable = 1 →
      Function.update base (regAddress dev (capAddr + 8)) msiCap.msgUpperAddr = base := by
    intro hwide
    apply update_same
    rw [hupper hwide]
    exact hkept _ (by omega) (by omega)
  have hmask' : BitField.get msiCap.header perVectorMaskCapable = 1 →
      Function.update (Function.update (Function.update base (regAddress dev dataAddr) msiCap.msgData)
        (regAddress dev (dataAddr + 4)) msiCap.maskBits) (regAddress dev (dataAddr + 8)) msiCap.pendingBits =
        Function.update base (regAddress dev dataAddr) msiCap.msgData := by
    intro hvector
    obtain ⟨hbits, hpending⟩ := hmask hvector
    have hafter : ∀ k, 4 ≤ k → k ≤ 8 →
        Function.update base (regAddress dev dataAddr) msiCap.msgData (regAddress dev (dataAddr + k)) =
          s.registers (regAddress dev (dataAddr + k)) := by
      intro k hlo hhi
      rw [Function.update_of_ne (regAddress_ne hdev (by omega))]
      exact hkept _ (by omega) (by omega)
    have hfirst := update_same ((hafter 4 (by decide) (by decide)).trans hbits.symm)
    have hsecond := update_same ((hafter 8 (by decide) (by decide)).trans hpending.symm)
    rw [hfirst, hsecond]
  by_cases hwide : BitField.get msiCap.header addr64Capable = 1
  · by_cases hvector : BitField.get msiCap.header perVectorMaskCapable = 1
    · rw [if_pos hwide, if_pos hvector]
      dsimp only
      rw [hupper' hwide, hmask' hvector]
    · rw [if_pos hwide, if_neg hvector]
      dsimp only
      rw [hupper' hwide]
  · by_cases hvector : BitField.get msiCap.header perVectorMaskCapable = 1
    · rw [if_neg hwide, if_pos hvector]
      dsimp only
      rw [hmask' hvector]
    · rw [if_neg hwide, if_neg hvector]

/-- What `ConfigureMSIFixedDestination` makes of the registers. -/
structure Configured (dev : Device) (msiCapAddr msgAddr msgData numVectorExponent : Nat) (s s' : ConfigPorts) :
    Prop where
  enabled : BitField.get (s'.registers (regAddress dev msiCapAddr)) msiEnable = 1
  count : BitField.get (s'.registers (regAddress dev msiCapAddr)) multiMsgEnable =
    min (BitField.get (s.registers (regAddress dev msiCapAddr)) multiMsgCapable) numVectorExponent
  header : ∀ f, msiEnable.Apart f → multiMsgEnable.Apart f →
    BitField.get (s'.registers (regAddress dev msiCapAddr)) f = BitField.get (s.registers (regAddress dev msiCapAddr)) f
  msgAddr : s'.registers (regAddress dev (msiCapAddr + 4)) = msgAddr
  msgData : s'.registers (regAddress dev (msgDataAddr (s.registers (regAddress dev msiCapAddr)) msiCapAddr)) = msgData
  /-- The other registers of the device -/
  rest : ∀ r, r % 256 / 4 ≠ msiCapAddr / 4 → r % 256 / 4 ≠ (msiCapAddr + 4) / 4 →
    r % 256 / 4 ≠ msgDataAddr (s.registers (regAddress dev msiCapAddr)) msiCapAddr / 4 →
    s'.registers (regAddress dev r) = s.registers (regAddress dev r)
  /-- The registers of the other devices -/
  others : ∀ other, Located other →
    (other.bus, other.device, other.function) ≠ (dev.bus, dev.device, dev.function) →
    ∀ r, s'.registers (regAddress other r) = s.registers (regAddress other r)

theorem configured_of_registers {s' : ConfigPorts} {msgAddr msgData : Nat} (hdev : Located dev)
    (hend : capAddr + 24 ≤ 256)
    (h : s'.registers = Function.update (Function.update (Function.update s.registers
      (regAddress dev capAddr) (enabledHeader (s.registers (regAddress dev capAddr)) n))
      (regAddress dev (capAddr + 4)) msgAddr)
      (regAddress dev (msgDataAddr (s.registers (regAddress dev capAddr)) capAddr)) msgData) :
    Configured dev capAddr msgAddr msgData n s s' := by
  have hdata := msgDataAddr_cases (s.registers (regAddress dev capAddr)) hend
  have hheader : s'.registers (regAddress dev capAddr) = enabledHeader (s.registers (regAddress dev capAddr)) n := by
    rw [h, Function.update_of_ne (regAddress_ne hdev (by omega)), Function.update_of_ne (regAddress_ne hdev (by omega)),
      Function.update_self]
  refine ⟨?_, ?_, fun f henable hcount => ?_, ?_, ?_, fun r hne hne' hne'' => ?_, fun other hother hne r => ?_⟩
  · rw [hheader]
    exact get_enabledHeader_msiEnable _
  · rw [hheader]
    exact get_enabledHeader_multiMsgEnable _
  · rw [hheader]
    exact get_enabledHeader_of_apart hcount henable
  · rw [h, Function.update_of_ne (regAddress_ne hdev (by omega)), Function.update_self]
  · rw [h, Function.update_self]
  · rw [h, Function.update_of_ne (regAddress_ne hdev (by omega)), Function.update_of_ne (regAddress_ne hdev (by omega)),
      Function.update_of_ne (regAddress_ne hdev (by omega))]
  · have hapart : ∀ r', regAddress other r ≠ regAddress dev r' := by
      intro r' heq
      obtain ⟨hbus, hdevice, hfunction, -⟩ := (regAddress_inj hother hdev).mp heq
      apply hne
      rw [hbus, hdevice, hfunction]
    rw [h, Function.update_of_ne (hapart _), Function.update_of_ne (hapart _), Function.update_of_ne (hapart _)]

end Msi

/-- A device with a power management capability at 0x50 and, behind it, a 64-bit MSI capability at 0x80. -/
def exampleXhc : Device := ⟨0, 20, 0, 0, ⟨0x0c, 0x03, 0x30⟩⟩

def exampleXhcPorts : ConfigPorts where
  address := 0
  registers := fun address =>
    if address = regAddress exampleXhc 0x34 then 0x50
    else if address = regAddress exampleXhc 0x50 then 0x8001
    else if address = regAddress exampleXhc 0x80 then 0x860005
    else 0

end MikanSaos.Pci
