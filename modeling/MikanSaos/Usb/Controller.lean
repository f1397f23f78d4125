import MikanSaos.Error
import Mathlib.Data.List.Basic
import Mathlib.Logic.Function.Basic

/-!
# Controller — the ports of the xHC and the events that drive them

Each port goes through its phases, and `addressing_port` is the one port that is being given an address.
An event is what the driver reads while it handles it: its TRB, the port registers and the device context
of the slot it names.
-/

namespace MikanSaos

inductive ConfigPhase where
  | kNotConnected | kWaitingAddressed | kResettingPort | kEnablingSlot | kAddressingDevice
  | kInitializingDevice | kConfiguringEndpoints | kConfigured
  deriving DecidableEq, Repr

/-- The fields of `PORTSC` that the driver reads. -/
structure PortSC where
  currentConnectStatus : Bool
  portEnabledDisabled : Bool
  portResetChange : Bool
  portSpeed : Nat

inductive CommandType where
  | enableSlot | addressDevice | configureEndpoint
  deriving DecidableEq, Repr

def kSuperSpeedPlus : Nat := 5

/-- `_max_slots` -/
def kDeviceSize : Nat := 8

/-- `phase` is that of `PortAt`, also for the index 0; a device is the port in its input context.  Not in the
source: `issued` are the commands with the ports they are for, and `completed` those whose completion event
has been handled. -/
structure Controller where
  maxPorts : Nat
  phase : Nat → ConfigPhase
  addressingPort : Nat
  devices : Nat → Option Nat
  issued : List (CommandType × Nat)
  completed : List Nat

/-- The TRB that a completion event points to: a command of the driver, or what else is there. -/
inductive CommandPointer where
  | issued (k : Nat)
  | other (trbType : Option CommandType)

/-- `rootHubPortNum` is that of the device context of the slot; a transfer event comes with what the device
makes of it. -/
inductive ControllerEvent where
  | transfer (slotId : Nat) (received : Error) (isInitialized : Bool) (rootHubPortNum : Nat)
  | commandCompletion (pointer : CommandPointer) (slotId rootHubPortNum : Nat)
  | portStatusChange (portId : Nat)
  | other

namespace Controller

def setConfigPhase (c : Controller) (port : Nat) (configPhase : ConfigPhase) : Controller :=
  { c with phase := Function.update c.phase port configPhase }

def push (c : Controller) (type : CommandType) (port : Nat) : Controller :=
  { c with issued := c.issued ++ [(type, port)] }

def findBySlot (c : Controller) (slotId : Nat) : Option Nat :=
  if kDeviceSize < slotId then none else c.devices slotId

/-- The port and its slot are recorded in the input context. -/
def allocDevice (c : Controller) (slotId port : Nat) : Error × Controller :=
  if kDeviceSize < slotId then (.kInvalidSlotID, c)
  else if (c.devices slotId).isSome then (.kAlreadyAllocated, c)
  else (.kSuccess, { c with devices := Function.update c.devices slotId (some port) })

def resetPort (c : Controller) (regs : Nat → PortSC) (port : Nat) : Error × Controller :=
  if ¬ (regs port).currentConnectStatus then (.kSuccess, c)
  else if c.addressingPort ≠ 0 then (.kSuccess, c.setConfigPhase port .kWaitingAddressed)
  else if c.phase port ≠ .kNotConnected ∧ c.phase port ≠ .kWaitingAddressed then (.kInvalidPhase, c)
  else (.kSuccess, { c with addressingPort := port }.setConfigPhase port .kResettingPort)

def enableSlot (c : Controller) (regs : Nat → PortSC) (port : Nat) : Error × Controller :=
  if (regs port).portEnabledDisabled ∧ (regs port).portResetChange then
    (.kSuccess, (c.setConfigPhase port .kEnablingSlot).push .enableSlot port)
  else (.kSuccess, c)

def addressDevice (c : Controller) (portId slotId : Nat) : Error × Controller :=
  let (err, c) := c.allocDevice slotId portId
  if err ≠ .kSuccess then (err, c)
  else (.kSuccess, (c.setConfigPhase portId .kAddressingDevice).push .addressDevice portId)

def initializeDevice (c : Controller) (portId slotId : Nat) : Error × Controller :=
  if (c.findBySlot slotId).isNone then (.kInvalidSlotID, c)
  else (.kSuccess, c.setConfigPhase portId .kInitializingDevice)

def configureEndPoints (c : Controller) (regs : Nat → PortSC) (portId : Nat) : Error × Controller :=
  if (regs portId).portSpeed = 0 ∨ kSuperSpeedPlus < (regs portId).portSpeed then
    (.kUnknownXHCISpeedID, c)
  else (.kSuccess, (c.setConfigPhase portId .kConfiguringEndpoints).push .configureEndpoint portId)

/-! ## The handlers -/

def onTransferEvent (c : Controller) (regs : Nat → PortSC) (slotId : Nat) (received : Error)
    (isInitialized : Bool) (rootHubPortNum : Nat) : Error × Controller :=
  if (c.findBySlot slotId).isNone then (.kInvalidSlotID, c)
  else if received ≠ .kSuccess then (received, c)
  else if isInitialized ∧ c.phase rootHubPortNum = .kInitializingDevice then
    c.configureEndPoints regs rootHubPortNum
  else (.kSuccess, c)

/-- The loop that configures the next port, for the `n` ports from `i` on. -/
def configureNextPort (regs : Nat → PortSC) : (n i : Nat) → Controller → Error × Controller
  | 0, _, c => (.kSuccess, c)
  | n + 1, i, c =>
    if c.phase i = .kWaitingAddressed then c.resetPort regs i else configureNextPort regs n (i + 1) c

/-- The ports that the loop looks at. -/
def scannedPorts (c : Controller) : (n i : Nat) → List Nat
  | 0, _ => []
  | n + 1, i => i :: if c.phase i = .kWaitingAddressed then [] else scannedPorts c n (i + 1)

def onAddressDevice (c : Controller) (regs : Nat → PortSC) (slotId rootHubPortNum : Nat) :
    Error × Controller :=
  if (c.findBySlot slotId).isNone then (.kInvalidSlotID, c)
  else if rootHubPortNum ≠ c.addressingPort ∨ c.phase c.addressingPort ≠ .kAddressingDevice then
    (.kInvalidPhase, c)
  else
    let (err, c) := configureNextPort regs c.maxPorts 0 { c with addressingPort := 0 }
    if err ≠ .kSuccess then (err, c) else c.initializeDevice rootHubPortNum slotId

def onConfigureEndpoint (c : Controller) (slotId rootHubPortNum : Nat) : Error × Controller :=
  if (c.findBySlot slotId).isNone then (.kInvalidSlotID, c)
  else if c.phase rootHubPortNum ≠ .kConfiguringEndpoints then (.kInvalidPhase, c)
  else (.kSuccess, c.setConfigPhase rootHubPortNum .kConfigured)

def onCommandCompletionEvent (c : Controller) (regs : Nat → PortSC) (issuerType : Option CommandType)
    (slotId rootHubPortNum : Nat) : Error × Controller :=
  match issuerType with
  | some .enableSlot =>
    if c.phase c.addressingPort ≠ .kEnablingSlot then (.kInvalidPhase, c)
    else c.addressDevice c.addressingPort slotId
  | some .addressDevice => c.onAddressDevice regs slotId rootHubPortNum
  | some .configureEndpoint => c.onConfigureEndpoint slotId rootHubPortNum
  | none => (.kInvalidPhase, c)

def onPortStatusChangeEvent (c : Controller) (regs : Nat → PortSC) (portId : Nat) : Error × Controller :=
  if c.phase portId = .kNotConnected then c.resetPort regs portId
  else if c.phase portId = .kResettingPort then c.enableSlot regs portId
  else (.kInvalidPhase, c)

/-- `trb.Pointer()->bits.trb_type` -/
def issuerType (c : Controller) : CommandPointer → Option CommandType
  | .issued k => c.issued[k]?.map Prod.fst
  | .other type => type

/-- A command that the event points to is completed with it. -/
def complete (c : Controller) : CommandPointer → Controller
  | .issued k => if k < c.issued.length then { c with completed := k :: c.completed } else c
  | .other _ => c

def processEvent (c : Controller) (regs : Nat → PortSC) : ControllerEvent → Error × Controller
  | .transfer slotId received isInitialized rootHubPortNum =>
    c.onTransferEvent regs slotId received isInitialized rootHubPortNum
  | .commandCompletion pointer slotId rootHubPortNum =>
    (c.complete pointer).onCommandCompletionEvent regs (c.issuerType pointer) slotId rootHubPortNum
  | .portStatusChange portId => c.onPortStatusChangeEvent regs portId
  | .other => (.kNotImplemented, c)

/-! ## The start -/

def configurePort (c : Controller) (regs : Nat → PortSC) (port : Nat) : Error × Controller :=
  if c.phase port = .kNotConnected then c.resetPort regs port else (.kSuccess, c)

/-- The loop of `Initialize` over the ports from 1 on. -/
def configurePorts (regs : Nat → PortSC) : (n : Nat) → Controller → Controller
  | 0, c => c
  | n + 1, c =>
    let c := configurePorts regs n c
    if (regs (n + 1)).currentConnectStatus then (c.configurePort regs (n + 1)).2 else c

end Controller

end MikanSaos
