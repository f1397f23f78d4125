import MikanSaos.Error
import Mathlib.Logic.Function.Basic

/-!
# ScanBus — the PCI devices and how they are found

A function that answers is put into a table of 32 entries.  Where it is a bridge to another bus, that bus is
scanned before the next function.
-/

namespace MikanSaos.Pci

structure ClassCode where
  base : BitVec 8
  sub : BitVec 8
  interface : BitVec 8
  deriving DecidableEq

structure Device where
  bus : Nat
  device : Nat
  function : Nat
  headerType : BitVec 8
  classCode : ClassCode
  deriving DecidableEq

/-- The value of a register, by bus, device, function and address.  The driver only reads them. -/
abbrev ConfigSpace := Nat → Nat → Nat → Nat → BitVec 32

def readVendorId (config : ConfigSpace) (bus device function : Nat) : BitVec 16 :=
  (config bus device function 0x00).extractLsb' 0 16

def readHeaderType (config : ConfigSpace) (bus device function : Nat) : BitVec 8 :=
  (config bus device function 0x0c).extractLsb' 16 8

def readClassCode (config : ConfigSpace) (bus device function : Nat) : ClassCode :=
  let reg := config bus device function 0x08
  ⟨reg.extractLsb' 24 8, reg.extractLsb' 16 8, reg.extractLsb' 8 8⟩

def readBusNumbers (config : ConfigSpace) (bus device function : Nat) : BitVec 32 := config bus device function 0x18

def isSingleFunctionDevice (headerType : BitVec 8) : Bool := headerType &&& 0x80 = 0

/-- `Match(0x06u, 0x004u)` -/
def ClassCode.isPciBridge (classCode : ClassCode) : Bool := classCode.base = 0x06 ∧ classCode.sub = 0x04

/-- Does a function answer? -/
def responds (config : ConfigSpace) (bus device function : Nat) : Bool :=
  readVendorId config bus device function ≠ 0xffff

/-- `(bus_numbers >> 8) & 0xff` -/
def secondaryBus (config : ConfigSpace) (bus device function : Nat) : Nat :=
  ((readBusNumbers config bus device function).extractLsb' 8 8).toNat

/-! ## The table -/

/-- `written` are the indices that the scan has written to, the last one first. -/
structure DeviceTable where
  devices : Nat → Device
  numDevice : Nat
  written : List Nat

/-- `devices.size()` -/
def tableSize : Nat := 32

namespace DeviceTable

/-- `devices[0..num_device-1]` -/
def recorded (t : DeviceTable) : List Device := (List.range t.numDevice).map t.devices

/-- `devices[num_device] = device; num_device++;` -/
def put (t : DeviceTable) (device : Device) : DeviceTable where
  devices := Function.update t.devices t.numDevice device
  numDevice := t.numDevice + 1
  written := t.numDevice :: t.written

def addDevice (t : DeviceTable) (device : Device) : Error × DeviceTable :=
  if t.numDevice = tableSize then (.kFull, t) else (.kSuccess, t.put device)

end DeviceTable

/-! ## The scan -/

/-- A loop over numbers: those that do not answer are skipped, and the first error ends it. -/
def scanEach (answers : Nat → Bool) (scan : Nat → DeviceTable → Option (Error × DeviceTable)) :
    List Nat → DeviceTable → Option (Error × DeviceTable)
  | [], t => some (.kSuccess, t)
  | n :: rest, t =>
    if answers n then
      (scan n t).bind fun (err, t) => if err = .kSuccess then scanEach answers scan rest t else some (err, t)
    else scanEach answers scan rest t

/-- The entry of a function. -/
def deviceAt (config : ConfigSpace) (bus device function : Nat) : Device :=
  ⟨bus, device, function, readHeaderType config bus device function, readClassCode config bus device function⟩

/-- The scan of another bus is an argument of this function and the next one. -/
def scanFunction (config : ConfigSpace) (scanBus : Nat → DeviceTable → Option (Error × DeviceTable))
    (bus device function : Nat) (t : DeviceTable) : Option (Error × DeviceTable) :=
  let (err, t) := t.addDevice (deviceAt config bus device function)
  if err = .kSuccess then
    if (readClassCode config bus device function).isPciBridge then scanBus (secondaryBus config bus device function) t
    else some (.kSuccess, t)
  else some (err, t)

def scanDevice (config : ConfigSpace) (scanBus : Nat → DeviceTable → Option (Error × DeviceTable))
    (bus device : Nat) (t : DeviceTable) : Option (Error × DeviceTable) :=
  (scanFunction config scanBus bus device 0 t).bind fun (err, t) =>
    if err = .kSuccess then
      if isSingleFunctionDevice (readHeaderType config bus device 0) then some (.kSuccess, t)
      else scanEach (responds config bus device) (scanFunction config scanBus bus device) (List.range' 1 7) t
    else some (err, t)

/-- The depth to which bridges are followed is limited here, by `depth`. -/
def scanBus (config : ConfigSpace) : Nat → Nat → DeviceTable → Option (Error × DeviceTable)
  | 0, _, _ => none
  | depth + 1, bus, t =>
    scanEach (responds config bus · 0) (scanDevice config (scanBus config depth) bus) (List.range 32) t

def scanAllBus (config : ConfigSpace) (depth : Nat) (t : DeviceTable) : Option (Error × DeviceTable) :=
  let t := { t with numDevice := 0, written := [] }
  if isSingleFunctionDevice (readHeaderType config 0 0 0) then scanBus config depth 0 t
  else scanEach (responds config 0 0) (scanBus config depth) (List.range' 1 7) t

end MikanSaos.Pci
