import Mathlib.Data.List.Range
import MikanSaos.Reasoning.Reach
import MikanSaos.Usb.Controller

/-!
# Addressing — one port at a time is given an address

`addressing_port` is a lock.  A port that takes it is reset, then it gets a slot and an address; the
completion of the last command passes the lock on to a port that waits.
-/

open Reasoning

namespace MikanSaos

namespace Controller

variable {c c' : Controller} {regs : Nat → PortSC} {port slotId n i : Nat}

/-- The phases of a port that holds the lock. -/
def Addressing (phase : ConfigPhase) : Prop :=
  phase = .kResettingPort ∨ phase = .kEnablingSlot ∨ phase = .kAddressingDevice

/-- A driver that has configured no port; `phase₀` is what `PortAt` finds for the index 0. -/
def unconfigured (maxPorts : Nat) (phase₀ : ConfigPhase) : Controller :=
  ⟨maxPorts, fun p => if p = 0 then phase₀ else .kNotConnected, 0, fun _ => none, [], []⟩

/-- The driver after `Initialize`, with the ports that were connected then.  At the index 0 there is no
waiting and no enabling port. -/
def Started (c : Controller) : Prop :=
  ∃ maxPorts phase₀ regs, phase₀ ≠ .kWaitingAddressed ∧ phase₀ ≠ .kEnablingSlot ∧
    c = configurePorts regs maxPorts (unconfigured maxPorts phase₀)

/-- An event, and what the port registers hold while it is handled. -/
def Step (c : Controller) (e : ControllerEvent × (Nat → PortSC)) (c' : Controller) : Prop :=
  c' = (c.processEvent e.2 e.1).2

/-- The device context of a slot names the port that was addressed. -/
def NamesPort (c : Controller) (slotId rootHubPortNum : Nat) : Prop :=
  ∀ port, c.findBySlot slotId = some port → rootHubPortNum = port

/-- The events of a controller that knows its ports. -/
def WellFormed (c : Controller) (e : ControllerEvent × (Nat → PortSC)) : Prop :=
  match e.1 with
  | .transfer slotId _ _ rootHubPortNum => c.NamesPort slotId rootHubPortNum
  | .commandCompletion _ slotId rootHubPortNum => c.NamesPort slotId rootHubPortNum
  | .portStatusChange portId => 1 ≤ portId ∧ portId ≤ c.maxPorts
  | .other => True

/-- Any events at all. -/
def AnyEvent (_ : Controller) (_ : ControllerEvent × (Nat → PortSC)) : Prop := True

/-! ## What the functions do -/

@[simp] theorem setConfigPhase_self (c : Controller) (port : Nat) (configPhase : ConfigPhase) :
    (c.setConfigPhase port configPhase).phase port = configPhase := Function.update_self ..

theorem setConfigPhase_of_ne {p : Nat} {configPhase : ConfigPhase} (h : p ≠ port) :
    (c.setConfigPhase port configPhase).phase p = c.phase p := Function.update_of_ne h ..

/-- A connected port takes the lock. -/
def lock (c : Controller) (port : Nat) : Controller :=
  { c with addressingPort := port }.setConfigPhase port .kResettingPort

theorem resetPort_cases (c : Controller) (regs : Nat → PortSC) (port : Nat) :
    (∃ err, c.resetPort regs port = (err, c)) ∨
      (c.addressingPort ≠ 0 ∧ c.resetPort regs port = (.kSuccess, c.setConfigPhase port .kWaitingAddressed)) ∨
      (c.addressingPort = 0 ∧ c.resetPort regs port = (.kSuccess, c.lock port)) := by
  unfold resetPort
  split
  · exact .inl ⟨_, rfl⟩
  · split
    · rename_i hlock
      exact .inr (.inl ⟨hlock, rfl⟩)
    · rename_i hfree
      split
      · exact .inl ⟨_, rfl⟩
      · exact .inr (.inr ⟨not_not.mp hfree, rfl⟩)

/-- A waiting port gets the free lock if it is still connected. -/
theorem resetPort_waiting (hfree : c.addressingPort = 0) (hwaiting : c.phase port = .kWaitingAddressed) :
    c.resetPort regs port =
      (.kSuccess, if (regs port).currentConnectStatus = true then c.lock port else c) := by
  unfold resetPort
  by_cases hconnected : (regs port).currentConnectStatus = true
  · rw [if_neg (not_not.mpr hconnected), if_neg (not_not.mpr hfree), if_neg fun h => h.2 hwaiting,
      if_pos hconnected]
    rfl
  · rw [if_pos hconnected, if_neg hconnected]

theorem enableSlot_cases (c : Controller) (regs : Nat → PortSC) (port : Nat) :
    (c.enableSlot regs port).2 = c ∨
      (c.enableSlot regs port).2 = (c.setConfigPhase port .kEnablingSlot).push .enableSlot port := by
  unfold enableSlot
  split
  · exact .inr rfl
  · exact .inl rfl

/-- A slot that a device may get. -/
def SlotFree (c : Controller) (slotId : Nat) : Prop := slotId ≤ kDeviceSize ∧ c.devices slotId = none

theorem addressDevice_eq (c : Controller) (portId slotId : Nat) :
    (¬ c.SlotFree slotId ∧ (c.addressDevice portId slotId).2 = c) ∨
      (c.SlotFree slotId ∧ (c.addressDevice portId slotId).2 =
        ({ c with devices := Function.update c.devices slotId (some portId) }.setConfigPhase portId
          .kAddressingDevice).push .addressDevice portId) := by
  unfold addressDevice allocDevice
  by_cases hslot : kDeviceSize < slotId
  · rw [if_pos hslot]
    exact .inl ⟨fun hfree => absurd hfree.1 (Nat.not_le.mpr hslot), rfl⟩
  · rw [if_neg hslot]
    by_cases hused : (c.devices slotId).isSome = true
    · rw [if_pos hused]
      refine .inl ⟨fun hfree => ?_, rfl⟩
      rw [hfree.2] at hused
      cases hused
    · rw [if_neg hused]
      exact .inr ⟨⟨Nat.not_lt.mp hslot, Option.not_isSome_iff_eq_none.mp hused⟩, rfl⟩

/-! ## The loop that configures the next port -/

/-- The port that the loop stops at. -/
def firstWaiting (c : Controller) : Option Nat :=
  (List.range c.maxPorts).find? fun i => c.phase i = .kWaitingAddressed

theorem configureNextPort_eq (regs : Nat → PortSC) (n i : Nat) (c : Controller) :
    configureNextPort regs n i c =
      match (List.range' i n).find? (fun j => c.phase j = .kWaitingAddressed) with
      | some j => c.resetPort regs j
      | none => (.kSuccess, c) := by
  induction n generalizing i with
  | zero => rfl
  | succ n ih =>
    rw [configureNextPort, List.range'_succ, List.find?_cons]
    by_cases hwaiting : c.phase i = .kWaitingAddressed
    · rw [if_pos hwaiting, decide_eq_true hwaiting]
    · rw [if_neg hwaiting, decide_eq_false hwaiting]
      exact ih (i + 1)

theorem firstWaiting_spec (h : c.firstWaiting = some port) :
    port < c.maxPorts ∧ c.phase port = .kWaitingAddressed := by
  have hwaiting := List.find?_some h
  exact ⟨List.mem_range.mp (List.mem_of_find?_eq_some h), of_decide_eq_true hwaiting⟩

/-- With a free lock the loop passes it to the first waiting port, if that is still connected. -/
theorem configureNextPort_free (hfree : c.addressingPort = 0) :
    configureNextPort regs c.maxPorts 0 c = (.kSuccess,
      match c.firstWaiting with
      | some port => if (regs port).currentConnectStatus = true then c.lock port else c
      | none => c) := by
  rw [configureNextPort_eq, ← List.range_eq_range']
  show (match c.firstWaiting with | some j => c.resetPort regs j | none => (.kSuccess, c)) = _
  cases hfirst : c.firstWaiting with
  | none => rfl
  | some port => exact resetPort_waiting hfree (firstWaiting_spec hfirst).2

/-- The driver with the lock passed on. -/
def passLock (c : Controller) (regs : Nat → PortSC) : Controller :=
  match c.firstWaiting with
  | some port =>
    if (regs port).currentConnectStatus = true then { c with addressingPort := 0 }.lock port
    else { c with addressingPort := 0 }
  | none => { c with addressingPort := 0 }

theorem passLock_cases (c : Controller) (regs : Nat → PortSC) :
    c.passLock regs = { c with addressingPort := 0 } ∨
      ∃ port, c.firstWaiting = some port ∧ (regs port).currentConnectStatus = true ∧
        c.passLock regs = { c with addressingPort := 0 }.lock port := by
  unfold passLock
  split
  · rename_i port hfirst
    split
    · rename_i hconnected
      exact .inr ⟨port, hfirst, hconnected, rfl⟩
    · exact .inl rfl
  · exact .inl rfl

/-- The completion that the handler accepts. -/
def AcceptsAddress (c : Controller) (slotId rootHubPortNum : Nat) : Prop :=
  (∃ port, c.findBySlot slotId = some port) ∧ rootHubPortNum = c.addressingPort ∧
    c.phase c.addressingPort = .kAddressingDevice

theorem onAddressDevice_accepts {rootHubPortNum : Nat} (h : c.AcceptsAddress slotId rootHubPortNum) :
    (c.onAddressDevice regs slotId rootHubPortNum).2 =
      (c.passLock regs).setConfigPhase c.addressingPort .kInitializingDevice := by
  obtain ⟨⟨port, hdevice⟩, rfl, hphase⟩ := h
  have hsome : ¬ (c.findBySlot slotId).isNone = true := by
    rw [hdevice]
    exact Bool.false_ne_true
  have hkeep : (c.passLock regs).findBySlot slotId = c.findBySlot slotId := by
    rcases c.passLock_cases regs with heq | ⟨_, -, -, heq⟩
    · rw [heq]
      rfl
    · rw [heq]
      rfl
  have hloop : configureNextPort regs c.maxPorts 0 { c with addressingPort := 0 } =
      (.kSuccess, c.passLock regs) := configureNextPort_free (c := { c with addressingPort := 0 }) rfl
  unfold onAddressDevice
  rw [if_neg hsome, if_neg (fun hor => hor.elim (fun hne => hne rfl) fun hne => hne hphase), hloop]
  dsimp only
  rw [if_neg (not_not.mpr rfl), initializeDevice, hkeep, if_neg hsome]

theorem onAddressDevice_refuses {rootHubPortNum : Nat} (h : ¬ c.AcceptsAddress slotId rootHubPortNum) :
    (c.onAddressDevice regs slotId rootHubPortNum).2 = c := by
  unfold onAddressDevice
  split
  · rfl
  · rename_i hsome
    split
    · rfl
    · rename_i haccept
      exfalso
      apply h
      rw [not_or, not_not, not_not] at haccept
      refine ⟨?_, haccept⟩
      rw [Option.isNone_iff_eq_none] at hsome
      exact Option.ne_none_iff_exists'.mp hsome

/-! ## What an event does -/

/-- The driver when the handler of the event starts. -/
def noteCompletion (c : Controller) : ControllerEvent → Controller
  | .commandCompletion pointer _ _ => c.complete pointer
  | _ => c

theorem complete_eq (c : Controller) (pointer : CommandPointer) :
    ∃ completed, c.complete pointer = { c with completed } := by
  cases pointer with
  | issued k =>
    rw [complete]
    split
    · exact ⟨_, rfl⟩
    · exact ⟨_, rfl⟩
  | other type => exact ⟨_, rfl⟩

theorem noteCompletion_eq (c : Controller) (e : ControllerEvent) :
    ∃ completed, c.noteCompletion e = { c with completed } := by
  cases e with
  | commandCompletion pointer slotId rootHubPortNum => exact c.complete_eq pointer
  | transfer slotId received isInitialized rootHubPortNum => exact ⟨_, rfl⟩
  | portStatusChange portId => exact ⟨_, rfl⟩
  | other => exact ⟨_, rfl⟩

/-- An event that changes nothing is not the completion that the port being addressed waits for. -/
def Refuses (c : Controller) : ControllerEvent → Prop
  | .commandCompletion pointer slotId rootHubPortNum =>
    (c.issuerType pointer = some .enableSlot → c.phase c.addressingPort = .kEnablingSlot →
      ¬ c.SlotFree slotId) ∧
    (c.issuerType pointer = some .addressDevice → ¬ c.AcceptsAddress slotId rootHubPortNum)
  | _ => True

/-- All that an event can do. -/
inductive Transition (c : Controller) (regs : Nat → PortSC) : ControllerEvent → Controller → Prop
  | refused {e : ControllerEvent} (h : c.Refuses e) : Transition c regs e c
  | waits {port : Nat} (hphase : c.phase port = .kNotConnected) (hlock : c.addressingPort ≠ 0) :
      Transition c regs (.portStatusChange port) (c.setConfigPhase port .kWaitingAddressed)
  | locks {port : Nat} (hphase : c.phase port = .kNotConnected) (hfree : c.addressingPort = 0) :
      Transition c regs (.portStatusChange port) (c.lock port)
  | enables {port : Nat} (hphase : c.phase port = .kResettingPort) :
      Transition c regs (.portStatusChange port)
        ((c.setConfigPhase port .kEnablingSlot).push .enableSlot port)
  | addresses {pointer : CommandPointer} {slotId rootHubPortNum : Nat}
      (htype : c.issuerType pointer = some .enableSlot)
      (hphase : c.phase c.addressingPort = .kEnablingSlot) :
      Transition c regs (.commandCompletion pointer slotId rootHubPortNum)
        (({ c with devices := Function.update c.devices slotId (some c.addressingPort) }.setConfigPhase
          c.addressingPort .kAddressingDevice).push .addressDevice c.addressingPort)
  | passes {pointer : CommandPointer} {slotId rootHubPortNum : Nat}
      (htype : c.issuerType pointer = some .addressDevice)
      (haccept : c.AcceptsAddress slotId rootHubPortNum) :
      Transition c regs (.commandCompletion pointer slotId rootHubPortNum)
        ((c.passLock regs).setConfigPhase c.addressingPort .kInitializingDevice)
  | configures {slotId rootHubPortNum port : Nat} {received : Error} {isInitialized : Bool}
      (hdevice : c.findBySlot slotId = some port) (hphase : c.phase rootHubPortNum = .kInitializingDevice) :
      Transition c regs (.transfer slotId received isInitialized rootHubPortNum)
        ((c.setConfigPhase rootHubPortNum .kConfiguringEndpoints).push .configureEndpoint rootHubPortNum)
  | configured {pointer : CommandPointer} {slotId rootHubPortNum port : Nat}
      (htype : c.issuerType pointer = some .configureEndpoint)
      (hdevice : c.findBySlot slotId = some port)
      (hphase : c.phase rootHubPortNum = .kConfiguringEndpoints) :
      Transition c regs (.commandCompletion pointer slotId rootHubPortNum)
        (c.setConfigPhase rootHubPortNum .kConfigured)

theorem onPortStatusChangeEvent_transition (c : Controller) (regs : Nat → PortSC) (port : Nat) :
    Transition c regs (.portStatusChange port) (c.onPortStatusChangeEvent regs port).2 := by
  unfold onPortStatusChangeEvent
  split
  · rename_i hphase
    rcases c.resetPort_cases regs port with ⟨err, heq⟩ | ⟨hlock, heq⟩ | ⟨hfree, heq⟩
    · rw [heq]
      exact .refused trivial
    · rw [heq]
      exact .waits hphase hlock
    · rw [heq]
      exact .locks hphase hfree
  · split
    · rename_i hphase
      rcases c.enableSlot_cases regs port with heq | heq
      · rw [heq]
        exact .refused trivial
      · rw [heq]
        exact .enables hphase
    · exact .refused trivial

theorem onTransferEvent_transition (c : Controller) (regs : Nat → PortSC) (slotId : Nat) (received : Error)
    (isInitialized : Bool) (rootHubPortNum : Nat) :
    Transition c regs (.transfer slotId received isInitialized rootHubPortNum)
      (c.onTransferEvent regs slotId received isInitialized rootHubPortNum).2 := by
  unfold onTransferEvent
  split
  · exact .refused trivial
  · rename_i hsome
    rw [Option.isNone_iff_eq_none] at hsome
    obtain ⟨port, hdevice⟩ := Option.ne_none_iff_exists'.mp hsome
    split
    · exact .refused trivial
    · split
      · rename_i hinitialized
        unfold configureEndPoints
        split
        · exact .refused trivial
        · exact .configures hdevice hinitialized.2
      · exact .refused trivial

theorem onCommandCompletionEvent_transition (c : Controller) (regs : Nat → PortSC)
    (pointer : CommandPointer) (slotId rootHubPortNum : Nat) :
    Transition c regs (.commandCompletion pointer slotId rootHubPortNum)
      (c.onCommandCompletionEvent regs (c.issuerType pointer) slotId rootHubPortNum).2 := by
  cases htype : c.issuerType pointer with
  | none =>
    refine .refused ⟨fun h => ?_, fun h => ?_⟩
    · rw [htype] at h
      cases h
    · rw [htype] at h
      cases h
  | some type =>
    cases type with
    | enableSlot =>
      have hother : c.issuerType pointer = some .addressDevice → ¬ c.AcceptsAddress slotId rootHubPortNum :=
        fun h => by
          rw [htype] at h
          cases h
      rw [onCommandCompletionEvent]
      by_cases henabling : c.phase c.addressingPort = .kEnablingSlot
      · rw [if_neg (not_not.mpr henabling)]
        rcases c.addressDevice_eq c.addressingPort slotId with ⟨hused, heq⟩ | ⟨-, heq⟩
        · rw [heq]
          exact .refused ⟨fun _ _ => hused, hother⟩
        · rw [heq]
          exact .addresses htype henabling
      · rw [if_pos henabling]
        exact .refused ⟨fun _ h => absurd h henabling, hother⟩
    | addressDevice =>
      rw [onCommandCompletionEvent]
      by_cases haccept : c.AcceptsAddress slotId rootHubPortNum
      · rw [onAddressDevice_accepts haccept]
        exact .passes htype haccept
      · rw [onAddressDevice_refuses haccept]
        refine .refused ⟨fun h => ?_, fun _ => haccept⟩
        rw [htype] at h
        cases h
    | configureEndpoint =>
      have hother : c.Refuses (.commandCompletion pointer slotId rootHubPortNum) := by
        refine ⟨fun h => ?_, fun h => ?_⟩
        · rw [htype] at h
          cases h
        · rw [htype] at h
          cases h
      rw [onCommandCompletionEvent, onConfigureEndpoint]
      split
      · exact .refused hother
      · rename_i hsome
        rw [Option.isNone_iff_eq_none] at hsome
        obtain ⟨port, hdevice⟩ := Option.ne_none_iff_exists'.mp hsome
        split
        · exact .refused hother
        · rename_i hphase
          exact .configured htype hdevice (not_not.mp hphase)

theorem complete_issuerType (c : Controller) (pointer other : CommandPointer) :
    (c.complete pointer).issuerType other = c.issuerType other := by
  obtain ⟨completed, heq⟩ := c.complete_eq pointer
  rw [heq]
  rfl

theorem processEvent_transition (c : Controller) (regs : Nat → PortSC) (e : ControllerEvent) :
    Transition (c.noteCompletion e) regs e (c.processEvent regs e).2 := by
  cases e with
  | transfer slotId received isInitialized rootHubPortNum =>
    exact c.onTransferEvent_transition regs slotId received isInitialized rootHubPortNum
  | commandCompletion pointer slotId rootHubPortNum =>
    rw [processEvent, ← c.complete_issuerType pointer pointer]
    exact (c.complete pointer).onCommandCompletionEvent_transition regs pointer slotId rootHubPortNum
  | portStatusChange portId => exact c.onPortStatusChangeEvent_transition regs portId
  | other => exact .refused trivial

/-! ## One port at a time -/

/-- A port that is reset, enabled or addressed is `addressing_port`. -/
structure Exclusive (c : Controller) : Prop where
  zero : c.phase 0 ≠ .kWaitingAddressed ∧ c.phase 0 ≠ .kEnablingSlot
  exclusive : ∀ p, 1 ≤ p → Addressing (c.phase p) → p = c.addressingPort
  devices : ∀ slotId port, c.devices slotId = some port → 1 ≤ port

theorem Exclusive.findBySlot (h : c.Exclusive) (hdevice : c.findBySlot slotId = some port) : 1 ≤ port := by
  unfold Controller.findBySlot at hdevice
  split at hdevice
  · cases hdevice
  · exact h.devices slotId port hdevice

/-- A port may change to a phase that needs no lock. -/
theorem Exclusive.setConfigPhase {configPhase : ConfigPhase} (h : c.Exclusive) (hport : 1 ≤ port)
    (hphase : ¬ Addressing configPhase) : (c.setConfigPhase port configPhase).Exclusive where
  zero := by
    rw [setConfigPhase_of_ne (by omega)]
    exact h.zero
  exclusive p hp hlocked := by
    by_cases heq : p = port
    · rw [heq, setConfigPhase_self] at hlocked
      exact absurd hlocked hphase
    · rw [setConfigPhase_of_ne heq] at hlocked
      exact h.exclusive p hp hlocked
  devices := h.devices

/-- The port that holds the lock may change to any phase. -/
theorem Exclusive.setLocked {configPhase : ConfigPhase} (h : c.Exclusive) (hport : 1 ≤ port)
    (hlock : port = c.addressingPort) : (c.setConfigPhase port configPhase).Exclusive where
  zero := by
    rw [setConfigPhase_of_ne (by omega)]
    exact h.zero
  exclusive p hp hlocked := by
    by_cases heq : p = port
    · exact heq.trans hlock
    · rw [setConfigPhase_of_ne heq] at hlocked
      exact h.exclusive p hp hlocked
  devices := h.devices

/-- With a free lock no port is being addressed, and any port may take it. -/
theorem Exclusive.lock (h : c.Exclusive) (hport : 1 ≤ port) (hfree : c.addressingPort = 0) :
    (c.lock port).Exclusive where
  zero := by
    have hzero : (c.lock port).phase 0 = c.phase 0 := Function.update_of_ne (by omega) ..
    rw [hzero]
    exact h.zero
  exclusive p hp hlocked := by
    by_cases heq : p = port
    · exact heq
    · have hsame : (c.lock port).phase p = c.phase p := Function.update_of_ne heq ..
      rw [hsame] at hlocked
      have hlock := h.exclusive p hp hlocked
      omega
  devices := h.devices

/-- The commands that are recorded do not matter. -/
theorem Exclusive.push {type : CommandType} {p : Nat} (h : c.Exclusive) : (c.push type p).Exclusive :=
  ⟨h.zero, h.exclusive, h.devices⟩

/-- The port that is being enabled gets a slot. -/
theorem Exclusive.setDevice (h : c.Exclusive) (hport : 1 ≤ port) :
    Exclusive { c with devices := Function.update c.devices slotId (some port) } where
  zero := h.zero
  exclusive := h.exclusive
  devices slot p hp := by
    change Function.update c.devices slotId (some port) slot = some p at hp
    by_cases hslot : slot = slotId
    · rw [hslot, Function.update_self] at hp
      cases hp
      exact hport
    · rw [Function.update_of_ne hslot] at hp
      exact h.devices slot p hp

/-- The port that gives up the lock leaves its phase in the same event. -/
theorem Exclusive.passLock (h : c.Exclusive) (hport : 1 ≤ c.addressingPort)
    (haddressing : c.phase c.addressingPort = .kAddressingDevice) :
    ((c.passLock regs).setConfigPhase c.addressingPort .kInitializingDevice).Exclusive := by
  have hfree : Exclusive ({ c with addressingPort := 0 }.setConfigPhase c.addressingPort
      .kInitializingDevice) := {
    zero := by
      rw [setConfigPhase_of_ne (by omega)]
      exact h.zero
    exclusive := fun p hp hlocked => by
      by_cases heq : p = c.addressingPort
      · rw [heq, setConfigPhase_self] at hlocked
        simp [Addressing] at hlocked
      · rw [setConfigPhase_of_ne heq] at hlocked
        exact absurd (h.exclusive p hp hlocked) heq
    devices := h.devices }
  rcases c.passLock_cases regs with heq | ⟨port, hfirst, -, heq⟩
  · rw [heq]
    exact hfree
  · rw [heq]
    obtain ⟨-, hwaiting⟩ := firstWaiting_spec hfirst
    have hne : port ≠ c.addressingPort := by
      rintro rfl
      rw [haddressing] at hwaiting
      cases hwaiting
    have hport' : 1 ≤ port := by
      rcases Nat.eq_zero_or_pos port with rfl | hpos
      · exact absurd hwaiting h.zero.1
      · exact hpos
    have hcomm : ({ c with addressingPort := 0 }.lock port).setConfigPhase c.addressingPort .kInitializingDevice =
        ({ c with addressingPort := 0 }.setConfigPhase c.addressingPort .kInitializingDevice).lock port := by
      simp only [Controller.lock, Controller.setConfigPhase]
      rw [Function.update_comm hne]
    rw [hcomm]
    exact hfree.lock hport' rfl

/-- What an event of a controller that knows its ports does. -/
theorem Exclusive.transition {e : ControllerEvent} (h : c.Exclusive) (hwell : c.WellFormed (e, regs))
    (ht : Transition c regs e c') : c'.Exclusive := by
  cases ht with
  | refused => exact h
  | waits => exact h.setConfigPhase hwell.1 (by simp [Addressing])
  | locks _ hfree => exact h.lock hwell.1 hfree
  | enables hreset =>
    have hlock := h.exclusive _ hwell.1 (.inl hreset)
    exact (h.setLocked hwell.1 hlock).push
  | addresses _ henabling =>
    have hport : 1 ≤ c.addressingPort := by
      rcases Nat.eq_zero_or_pos c.addressingPort with hzero | hpos
      · rw [hzero] at henabling
        exact absurd henabling h.zero.2
      · exact hpos
    exact ((h.setDevice hport).setLocked hport rfl).push
  | passes _ haccept =>
    -- the completion is for a device, and its context names `addressing_port`
    obtain ⟨⟨port, hdevice⟩, hlock, hphase⟩ := haccept
    have hnames : c.addressingPort = port := hlock ▸ hwell port hdevice
    exact h.passLock (hnames ▸ h.findBySlot hdevice) hphase
  | configures hdevice _ =>
    rw [hwell _ hdevice]
    exact (h.setConfigPhase (h.findBySlot hdevice) (by simp [Addressing])).push
  | configured _ hdevice _ =>
    rw [hwell _ hdevice]
    exact h.setConfigPhase (h.findBySlot hdevice) (by simp [Addressing])

theorem noteCompletion_wellFormed {e : ControllerEvent} (hwell : c.WellFormed (e, regs)) :
    (c.noteCompletion e).WellFormed (e, regs) := by
  obtain ⟨completed, heq⟩ := c.noteCompletion_eq e
  rw [heq]
  cases e <;> exact hwell

theorem Exclusive.step {e : ControllerEvent × (Nat → PortSC)} (h : c.Exclusive) (hwell : c.WellFormed e)
    (hstep : c.Step e c') : c'.Exclusive := by
  obtain ⟨event, regs⟩ := e
  rw [Step] at hstep
  subst hstep
  have hnoted : (c.noteCompletion event).Exclusive := by
    obtain ⟨completed, heq⟩ := c.noteCompletion_eq event
    rw [heq]
    exact ⟨h.zero, h.exclusive, h.devices⟩
  exact hnoted.transition (noteCompletion_wellFormed hwell) (c.processEvent_transition regs event)

theorem Exclusive.resetPort (h : c.Exclusive) (hport : 1 ≤ port) : (c.resetPort regs port).2.Exclusive := by
  rcases c.resetPort_cases regs port with ⟨err, heq⟩ | ⟨-, heq⟩ | ⟨hfree, heq⟩
  · rw [heq]
    exact h
  · rw [heq]
    exact h.setConfigPhase hport (by simp [Addressing])
  · rw [heq]
    exact h.lock hport hfree

theorem Exclusive.configurePorts (h : c.Exclusive) (regs : Nat → PortSC) (n : Nat) :
    (configurePorts regs n c).Exclusive := by
  induction n with
  | zero => exact h
  | succ n ih =>
    rw [Controller.configurePorts]
    split
    · unfold Controller.configurePort
      split
      · exact ih.resetPort (Nat.succ_pos n)
      · exact ih
    · exact ih

theorem Started.exclusive (h : c.Started) : c.Exclusive := by
  obtain ⟨maxPorts, phase₀, regs, hwaiting, henabling, rfl⟩ := h
  refine Exclusive.configurePorts ⟨⟨hwaiting, henabling⟩, ?_, ?_⟩ regs maxPorts
  · intro p hp hlocked
    have hphase : (unconfigured maxPorts phase₀).phase p = .kNotConnected := if_neg (by omega)
    rw [hphase] at hlocked
    simp [Addressing] at hlocked
  · intro slotId port hdevice
    cases hdevice

end Controller

open Controller

/-- At most one port is being reset, enabled or addressed, and it is `addressing_port`. -/
theorem addressing_exclusive {c : Controller} (h : Reachable Started (GuardedStep Step WellFormed) c) :
    (∀ p q, 1 ≤ p → 1 ≤ q → Addressing (c.phase p) → Addressing (c.phase q) → p = q) ∧
      ∀ p, 1 ≤ p → Addressing (c.phase p) → p = c.addressingPort := by
  have hexclusive : c.Exclusive :=
    h.invariant (fun _ => Started.exclusive) fun _ _ hinv ⟨_, hwell, hstep⟩ => hinv.step hwell hstep
  refine ⟨fun p q hp hq hlocked hlocked' => ?_, hexclusive.exclusive⟩
  rw [hexclusive.exclusive p hp hlocked, hexclusive.exclusive q hq hlocked']

/-- The register of a port that is connected and has just been reset. -/
def connectedPort : PortSC := ⟨true, true, true, 3⟩

/-- Two connected ports: the first one is being reset, the second one waits. -/
def twoPorts : Controller := configurePorts (fun _ => connectedPort) 2 (unconfigured 2 .kNotConnected)

theorem twoPorts_started : Started twoPorts :=
  ⟨2, .kNotConnected, fun _ => connectedPort, by decide, by decide, rfl⟩

theorem addressing_exclusive_twoPorts : twoPorts.phase 1 = .kResettingPort ∧ twoPorts.addressingPort = 1 ∧
    (∀ p q, 1 ≤ p → 1 ≤ q → Addressing (twoPorts.phase p) → Addressing (twoPorts.phase q) → p = q) ∧
      ∀ p, 1 ≤ p → Addressing (twoPorts.phase p) → p = twoPorts.addressingPort :=
  ⟨by decide, by decide, addressing_exclusive (.start twoPorts_started)⟩

end MikanSaos
