import MikanSaos.Error
import MikanSaos.Usb.Ring
import Mathlib.Logic.Function.Basic

/-!
# Descriptors — the configuration descriptor of a USB device

The device returns one block of records: the configuration, its interfaces, and for each interface its endpoints
and other descriptors.  Each record begins with its length and its type.  The reader goes from one record to the
next, and the records are used where they lie.
-/

namespace MikanSaos

def ConfigurationDescriptor.kType : UInt8 := 2
def InterfaceDescriptor.kType : UInt8 := 4
def EndpointDescriptor.kType : UInt8 := 5
def HIDDescriptor.kType : UInt8 := 33

/-- The drivers, with the number of their interface. -/
inductive ClassDriver where
  | hidKeyboard (interfaceIndex : UInt8)
  | hidMouse (interfaceIndex : UInt8)
  deriving DecidableEq

structure EndpointConfig where
  epId : EndpointID
  epType : Nat
  maxPacketSize : Nat
  interval : Nat
  deriving DecidableEq

variable (buf : Nat → UInt8) (len : Int)

/-! ## The records -/

namespace ConfigurationDescriptorReader

/-- `Next()` from the record at `p`, whose length it reads. -/
def next (p : Nat) : Option Nat :=
  let p := p + (buf p).toNat
  if (p : Int) < len then some p else none

/-- `Next<InterfaceDescriptor>()`, and the offsets of the bytes that it reads. -/
def nextInterface : Nat → Nat → Option (Option Nat × List Nat)
  | 0, _ => none
  | fuel + 1, p =>
    match next buf len p with
    | none => some (none, [p])
    | some desc =>
      if buf (desc + 1) = InterfaceDescriptor.kType then some (some desc, [p, desc + 1])
      else (nextInterface fuel desc).map fun (found, reads) => (found, [p, desc + 1] ++ reads)

end ConfigurationDescriptorReader

open ConfigurationDescriptorReader

/-- The allocation of the driver is taken to succeed. -/
def findClassDriver (ifDesc : Nat) : Option ClassDriver :=
  if buf (ifDesc + 5) = 3 ∧ buf (ifDesc + 6) = 1 then
    if buf (ifDesc + 7) = 1 then some (.hidKeyboard (buf (ifDesc + 2)))
    else if buf (ifDesc + 7) = 2 then some (.hidMouse (buf (ifDesc + 2)))
    else none
  else none

/-- The bytes of an interface that are looked at: by `Log` and by `FindClassDriver`, and all of them by the copy
to `_interfaces`. -/
def interfaceReads (ifIndex ifDesc : Nat) : List Nat :=
  [ifDesc + 5, ifDesc + 6, ifDesc + 7] ++ (if ifIndex < 3 then List.range' ifDesc 9 else []) ++
    if (findClassDriver buf ifDesc).isSome then [ifDesc + 2] else []

/-- The endpoint address has the number in its lowest four bits and the direction in the highest one. -/
def endpointConfig (epDesc : Nat) : EndpointConfig where
  epId := ⟨2 * ((buf (epDesc + 2)).toNat % 16) + (buf (epDesc + 2)).toNat / 128⟩
  epType := (buf (epDesc + 3)).toNat % 4
  maxPacketSize := (buf (epDesc + 4)).toNat + 256 * (buf (epDesc + 5)).toNat
  interval := (buf (epDesc + 6)).toNat

/-- The bytes of a record that are looked at in the loop over the endpoints. -/
def recordReads (desc : Nat) : List Nat :=
  if buf (desc + 1) = EndpointDescriptor.kType then List.range' (desc + 1) 6
  else if buf (desc + 1) = HIDDescriptor.kType then
    [desc + 1, desc + 2, desc + 3, desc + 5] ++
      -- the class descriptors are behind the six bytes of the struct
      (List.range (buf (desc + 5)).toNat).flatMap fun i => List.range' (desc + 6 + 3 * i) 3
  else [desc + 1]

/-! ## The phases -/

/-- What the phases leave in the device. -/
structure InitDevice where
  classDrivers : Int → Option ClassDriver
  epConfigs : List EndpointConfig

/-- `_ep_configs[_ep_configs_len++] = ep_conf`, and the driver under the number of the endpoint. -/
def InitDevice.addEndpoint (d : InitDevice) (driver : ClassDriver) (epConf : EndpointConfig) : InitDevice where
  classDrivers := Function.update d.classDrivers epConf.epId.number (some driver)
  epConfigs := d.epConfigs ++ [epConf]

/-- The loop over the endpoints of an interface: whether all of them have been found, the device and the reads. -/
def scanEndpoints (driver : ClassDriver) (ifDesc : Nat) :
    Nat → Nat → InitDevice → Option (Bool × InitDevice × List Nat)
  | 0, _, _ => none
  | fuel + 1, p, d =>
    if d.epConfigs.length < (buf (ifDesc + 4)).toNat then
      match next buf len p with
      | none => some (false, d, [ifDesc + 4, p])
      | some desc =>
        let d := if buf (desc + 1) = EndpointDescriptor.kType then d.addEndpoint driver (endpointConfig buf desc) else d
        (scanEndpoints driver ifDesc fuel desc d).map fun (found, d, reads) =>
          (found, d, [ifDesc + 4, p] ++ recordReads buf desc ++ reads)
    else some (true, d, [ifDesc + 4])

/-- The loop over the interfaces: the driver if one has been found with all its endpoints. -/
def scanInterfaces : Nat → Nat → Nat → InitDevice → Option (Option ClassDriver × InitDevice × List Nat)
  | 0, _, _, _ => none
  | fuel + 1, p, ifIndex, d =>
    (nextInterface buf len fuel p).bind fun
      | (none, reads) => some (none, d, reads)
      | (some ifDesc, reads) =>
        match findClassDriver buf ifDesc with
        | none => (scanInterfaces fuel ifDesc (ifIndex + 1) d).map fun (driver, d, later) =>
            (driver, d, reads ++ interfaceReads buf ifIndex ifDesc ++ later)
        | some driver =>
          (scanEndpoints buf len driver ifDesc fuel ifDesc { d with epConfigs := [] }).map fun (found, d, later) =>
            (if found then some driver else none, d, reads ++ interfaceReads buf ifIndex ifDesc ++ later)

/-- How `InitializePhase3` ends. -/
structure Phase3 where
  error : Error
  /-- The value that the device is asked to set, by `SetConfiguration`. -/
  configurationValue : Option UInt8
  device : InitDevice
  reads : List Nat

def initializePhase3 (fuel : Nat) (d : InitDevice) : Option Phase3 :=
  if buf 1 = ConfigurationDescriptor.kType then
    (scanInterfaces buf len fuel 0 0 d).map fun
      | (none, d, reads) => ⟨.kSuccess, none, d, 1 :: reads⟩
      | (some _, d, reads) => ⟨.kSuccess, some (buf 5), d, 1 :: (reads ++ [5])⟩
  else some ⟨.kInvalidDescriptor, none, d, [1]⟩

namespace InitDevice

/-- A device that has been allocated and constructed. -/
def fresh : InitDevice := ⟨fun _ => none, []⟩

/-- The drivers that `InitializePhase4` calls, one for each endpoint. -/
def initializePhase4 (d : InitDevice) : List (Option ClassDriver) :=
  d.epConfigs.map fun epConf => d.classDrivers epConf.epId.number

/-- The indices of `ConfigureEndPoints`, both into the contexts and into the transfer rings. -/
def configureEndPoints (d : InitDevice) : List Int := d.epConfigs.map fun epConf => epConf.epId.dci - 1

end InitDevice

end MikanSaos
