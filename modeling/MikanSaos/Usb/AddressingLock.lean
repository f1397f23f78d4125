import MikanSaos.Usb.Addressing

/-!
# AddressingLock — what becomes of the lock

The completion of an address command passes the lock on.  The loop that looks for the next port starts at the
index 0 and ends before the last port, and a completion that a handler refuses leaves the lock where it is.
-/

open Reasoning

namespace MikanSaos

namespace Controller

variable {c c' : Controller} {regs : Nat → PortSC} {port slotId : Nat}

/-- The driver after `Initialize`, whatever there is at the index 0. -/
def Configured (c : Controller) : Prop :=
  ∃ maxPorts phase₀ regs, c = configurePorts regs maxPorts (unconfigured maxPorts phase₀)

theorem lock_phase_self (c : Controller) (port : Nat) : (c.lock port).phase port = .kResettingPort :=
  Function.update_self ..

/-- What `Initialize` makes of the ports, one by one. -/
theorem configurePorts_induction (inv : Controller → Prop) {regs : Nat → PortSC} {maxPorts : Nat}
    (hinv : inv c) (hwaits : ∀ c port, inv c → c.addressingPort ≠ 0 → c.phase port = .kNotConnected →
      inv (c.setConfigPhase port .kWaitingAddressed))
    (hlocks : ∀ c port, inv c → port ≤ maxPorts → c.addressingPort = 0 → inv (c.lock port)) (n : Nat)
    (hn : n ≤ maxPorts) : inv (configurePorts regs n c) := by
  induction n with
  | zero => exact hinv
  | succ n ih =>
    have hrest := ih (by omega)
    rw [configurePorts]
    split
    · unfold configurePort
      split
      · rename_i hphase
        rcases resetPort_cases _ regs (n + 1) with ⟨err, heq⟩ | ⟨hlock, heq⟩ | ⟨hfree, heq⟩
        · rw [heq]
          exact hrest
        · rw [heq]
          exact hwaits _ _ hrest hlock hphase
        · rw [heq]
          exact hlocks _ _ hrest hn hfree
      · exact hrest
    · exact hrest

/-! ## The next port -/

/-- `addressing_port` is one of the ports. -/
def LocksPort (c : Controller) : Prop := c.addressingPort ≤ c.maxPorts

theorem LocksPort.passLock : (c.passLock regs).LocksPort := by
  rcases c.passLock_cases regs with heq | ⟨port, hfirst, -, heq⟩
  · rw [heq]
    exact Nat.zero_le _
  · rw [heq]
    exact (firstWaiting_spec hfirst).1.le

theorem LocksPort.step {e : ControllerEvent × (Nat → PortSC)} (h : c.LocksPort) (hwell : c.WellFormed e)
    (hstep : c.Step e c') : c'.LocksPort := by
  obtain ⟨event, regs⟩ := e
  rw [Step] at hstep
  subst hstep
  have hnoted : (c.noteCompletion event).LocksPort := by
    obtain ⟨completed, heq⟩ := c.noteCompletion_eq event
    rw [heq]
    exact h
  have hwell := noteCompletion_wellFormed hwell
  have ht := c.processEvent_transition regs event
  revert hnoted hwell ht
  generalize c.noteCompletion event = c₁
  generalize (c.processEvent regs event).2 = c₂
  intro hnoted hwell ht
  cases ht with
  | refused => exact hnoted
  | waits => exact hnoted
  | locks => exact hwell.2
  | enables => exact hnoted
  | addresses => exact hnoted
  | passes => exact LocksPort.passLock
  | configures => exact hnoted
  | configured => exact hnoted

theorem Configured.locksPort (h : c.Configured) : c.LocksPort := by
  obtain ⟨maxPorts, phase₀, regs, rfl⟩ := h
  have hinv : (configurePorts regs maxPorts (unconfigured maxPorts phase₀)).maxPorts = maxPorts ∧
      (configurePorts regs maxPorts (unconfigured maxPorts phase₀)).LocksPort :=
    configurePorts_induction (fun c => c.maxPorts = maxPorts ∧ c.LocksPort) ⟨rfl, Nat.zero_le _⟩
      (fun _ _ hinv _ _ => hinv) (fun _ _ hinv hport _ => ⟨hinv.1, hport.trans hinv.1.ge⟩) maxPorts le_rfl
  exact hinv.2

theorem locksPort_of_reachable (h : Reachable Configured (GuardedStep Step WellFormed) c) : c.LocksPort :=
  h.invariant (fun _ => Configured.locksPort) fun _ _ hinv ⟨_, hwell, hstep⟩ => hinv.step hwell hstep

/-- A connected port that waits for its address. -/
def WaitsConnected (c : Controller) (regs : Nat → PortSC) (port : Nat) : Prop :=
  1 ≤ port ∧ port ≤ c.maxPorts ∧ (regs port).currentConnectStatus = true ∧ c.phase port = .kWaitingAddressed

/-- While a connected port waits, one that waited is reset next and holds the lock. -/
def HandsOver (c : Controller) (regs : Nat → PortSC) (c' : Controller) : Prop :=
  (∃ q, c.WaitsConnected regs q) → ∃ p, 1 ≤ p ∧ p ≤ c.maxPorts ∧ c.phase p = .kWaitingAddressed ∧
    c'.phase p = .kResettingPort ∧ c'.addressingPort = p

/-- The loop looks at the ports only. -/
def ScansPorts (c : Controller) : Prop := ∀ i ∈ c.scannedPorts c.maxPorts 0, 1 ≤ i ∧ i ≤ c.maxPorts

/-- Of all indices that wait, the lowest is that of a connected port, and not of the last one. -/
def LowestWaitsConnected (c : Controller) (regs : Nat → PortSC) : Prop :=
  ∃ i, 1 ≤ i ∧ i < c.maxPorts ∧ c.phase i = .kWaitingAddressed ∧ (regs i).currentConnectStatus = true ∧
    ∀ j, j < i → c.phase j ≠ .kWaitingAddressed

theorem firstWaiting_eq_some (hport : port < c.maxPorts) (hwaiting : c.phase port = .kWaitingAddressed)
    (hfirst : ∀ j, j < port → c.phase j ≠ .kWaitingAddressed) : c.firstWaiting = some port := by
  unfold firstWaiting
  rw [List.find?_range_eq_some]
  refine ⟨decide_eq_true hwaiting, List.mem_range.mpr hport, fun j hj => ?_⟩
  rw [decide_eq_false (hfirst j hj)]
  rfl

theorem firstWaiting_first (h : c.firstWaiting = some port) {j : Nat} (hj : j < port) :
    c.phase j ≠ .kWaitingAddressed := by
  unfold firstWaiting at h
  rw [List.find?_range_eq_some] at h
  have hother := h.2.2 j hj
  intro hwaiting
  rw [decide_eq_true hwaiting] at hother
  cases hother

theorem handsOver_passLock_iff (haddressing : c.phase c.addressingPort = .kAddressingDevice) :
    c.HandsOver regs ((c.passLock regs).setConfigPhase c.addressingPort .kInitializingDevice) ↔
      (¬ ∃ q, c.WaitsConnected regs q) ∨ c.LowestWaitsConnected regs := by
  constructor
  · intro hover
    by_cases hwaits : ∃ q, c.WaitsConnected regs q
    · right
      obtain ⟨p, hp, -, -, -, hlocked⟩ := hover hwaits
      -- only a connected port before the last one gets the lock
      rcases c.passLock_cases regs with heq | ⟨port, hfirst, hconnected, heq⟩
      · rw [heq] at hlocked
        change 0 = p at hlocked
        omega
      · rw [heq] at hlocked
        change port = p at hlocked
        subst hlocked
        obtain ⟨hlt, hwaiting⟩ := firstWaiting_spec hfirst
        exact ⟨port, hp, hlt, hwaiting, hconnected, fun j => firstWaiting_first hfirst⟩
    · exact .inl hwaits
  · rintro (hnone | ⟨i, hi, hlt, hwaiting, hconnected, hfirst⟩) hwaits
    · exact absurd hwaits hnone
    · have hpass : c.passLock regs = { c with addressingPort := 0 }.lock i := by
        unfold passLock
        rw [firstWaiting_eq_some hlt hwaiting hfirst]
        exact if_pos hconnected
      have hne : i ≠ c.addressingPort := by
        rintro rfl
        rw [haddressing] at hwaiting
        cases hwaiting
      rw [hpass]
      refine ⟨i, hi, hlt.le, hwaiting, ?_, rfl⟩
      rw [setConfigPhase_of_ne hne]
      exact lock_phase_self ..

/-- The loop looks at the index 0 first. -/
theorem not_scansPorts (hports : 1 ≤ c.maxPorts) : ¬ c.ScansPorts := by
  intro hscan
  obtain ⟨n, hn⟩ := Nat.exists_eq_add_of_le' hports
  have hzero : 0 ∈ c.scannedPorts c.maxPorts 0 := by
    rw [hn, scannedPorts]
    exact List.mem_cons_self
  exact absurd (hscan 0 hzero).1 (by decide)

/-! ## The lock and the command that will release it -/

/-- A command for the port has not completed. -/
def Outstanding (c : Controller) (type : CommandType) (port : Nat) : Prop :=
  ∃ k, k ∉ c.completed ∧ c.issued[k]? = some (type, port)

/-- The port that holds the lock is being reset, or one of its commands has not completed. -/
def Releasable (c : Controller) : Prop :=
  c.addressingPort ≠ 0 → c.phase c.addressingPort = .kResettingPort ∨
    c.Outstanding .enableSlot c.addressingPort ∨ c.Outstanding .addressDevice c.addressingPort

/-- A completed command of the port that holds the lock brings what its handler accepts: Enable Slot a slot
that is free, Address Device a slot whose device is the one of the port. -/
def Answered (c : Controller) (e : ControllerEvent × (Nat → PortSC)) : Prop :=
  match e.1 with
  | .commandCompletion (.issued k) slotId rootHubPortNum =>
    (c.issued[k]? = some (.enableSlot, c.addressingPort) → c.phase c.addressingPort = .kEnablingSlot →
      c.SlotFree slotId) ∧
    (c.issued[k]? = some (.addressDevice, c.addressingPort) →
      c.phase c.addressingPort = .kAddressingDevice → c.AcceptsAddress slotId rootHubPortNum)
  | _ => True

/-- The phase of the port that holds the lock says which command has not completed. -/
structure Awaits (c : Controller) : Prop where
  completed : ∀ k ∈ c.completed, k < c.issued.length
  phase : c.addressingPort ≠ 0 → c.phase c.addressingPort = .kResettingPort ∨
    (c.phase c.addressingPort = .kEnablingSlot ∧ c.Outstanding .enableSlot c.addressingPort) ∨
    (c.phase c.addressingPort = .kAddressingDevice ∧ c.Outstanding .addressDevice c.addressingPort)

theorem Awaits.releasable (h : c.Awaits) : c.Releasable := fun hlock =>
  (h.phase hlock).imp_right (Or.imp And.right And.right)

theorem Outstanding.push {type type' : CommandType} {p : Nat} (h : c.Outstanding type port) :
    (c.push type' p).Outstanding type port := by
  obtain ⟨k, hk, hissued⟩ := h
  refine ⟨k, hk, ?_⟩
  change (c.issued ++ [(type', p)])[k]? = _
  rw [List.getElem?_append_left (List.getElem?_eq_some_iff.mp hissued).1]
  exact hissued

theorem outstanding_push {type : CommandType} (h : ∀ k ∈ c.completed, k < c.issued.length) :
    (c.push type port).Outstanding type port := by
  refine ⟨c.issued.length, fun hk => absurd (h _ hk) (lt_irrefl _), ?_⟩
  exact List.getElem?_concat_length ..

/-- The phases of the ports that wait for no command. -/
theorem Awaits.push {type : CommandType} {p : Nat} (h : c.Awaits) : (c.push type p).Awaits where
  completed k hk := by
    have hlt := h.completed k hk
    change k < (c.issued ++ [(type, p)]).length
    rw [List.length_append]
    omega
  phase hlock := by
    rcases h.phase hlock with hreset | ⟨hphase, hout⟩ | ⟨hphase, hout⟩
    · exact .inl hreset
    · exact .inr (.inl ⟨hphase, hout.push⟩)
    · exact .inr (.inr ⟨hphase, hout.push⟩)

/-- The port that holds the lock keeps its phase while another one changes its own. -/
theorem Awaits.setConfigPhase {configPhase : ConfigPhase} (h : c.Awaits)
    (hport : c.addressingPort ≠ 0 → c.addressingPort ≠ port) : (c.setConfigPhase port configPhase).Awaits where
  completed := h.completed
  phase hlock := by
    change (c.setConfigPhase port configPhase).phase c.addressingPort = _ ∨ _
    have hsame : (c.setConfigPhase port configPhase).phase c.addressingPort = c.phase c.addressingPort :=
      setConfigPhase_of_ne (hport hlock)
    rcases h.phase hlock with hreset | hrest
    · exact .inl (hsame.trans hreset)
    · right
      change (Controller.phase (c.setConfigPhase port configPhase) c.addressingPort = _ ∧ _) ∨
        Controller.phase (c.setConfigPhase port configPhase) c.addressingPort = _ ∧ _
      rw [hsame]
      exact hrest

/-- A port in a phase of its own does not hold the lock. -/
theorem Awaits.ne_of_phase (h : c.Awaits) (hphase : ¬ Addressing (c.phase port)) (hlock : c.addressingPort ≠ 0) :
    c.addressingPort ≠ port := by
  rintro rfl
  apply hphase
  rcases h.phase hlock with hreset | ⟨henabling, -⟩ | ⟨haddressing, -⟩
  · exact .inl hreset
  · exact .inr (.inl henabling)
  · exact .inr (.inr haddressing)

theorem Awaits.lock (h : c.Awaits) : (c.lock port).Awaits where
  completed := h.completed
  phase _ := .inl (lock_phase_self c port)

theorem Awaits.passLock (h : ∀ k ∈ c.completed, k < c.issued.length)
    (haddressing : c.phase c.addressingPort = .kAddressingDevice) :
    ((c.passLock regs).setConfigPhase c.addressingPort .kInitializingDevice).Awaits := by
  have hfree : Awaits { c with addressingPort := 0 } := ⟨h, fun hlock => absurd rfl hlock⟩
  rcases c.passLock_cases regs with heq | ⟨port, hfirst, -, heq⟩
  · rw [heq]
    exact hfree.setConfigPhase fun hlock => absurd rfl hlock
  · rw [heq]
    refine hfree.lock.setConfigPhase fun _ hsame => ?_
    change port = c.addressingPort at hsame
    have hwaiting := (firstWaiting_spec hfirst).2
    rw [hsame, haddressing] at hwaiting
    cases hwaiting

/-- The port that holds the lock is given a slot. -/
theorem Awaits.addresses {devices : Nat → Option Nat} (h : ∀ k ∈ c.completed, k < c.issued.length) :
    (({ c with devices }.setConfigPhase c.addressingPort .kAddressingDevice).push .addressDevice
      c.addressingPort).Awaits where
  completed k hk := by
    have hlt := h k hk
    change k < (c.issued ++ [(CommandType.addressDevice, c.addressingPort)]).length
    rw [List.length_append]
    omega
  phase _ := .inr (.inr ⟨setConfigPhase_self .., outstanding_push h⟩)

theorem Awaits.enables (h : c.Awaits) (hreset : c.phase port = .kResettingPort) :
    ((c.setConfigPhase port .kEnablingSlot).push .enableSlot port).Awaits := by
  by_cases hport : port = c.addressingPort
  · subst hport
    exact {
      completed := fun k hk => by
        have hlt := h.completed k hk
        change k < (c.issued ++ [(CommandType.enableSlot, c.addressingPort)]).length
        rw [List.length_append]
        omega
      phase := fun _ => .inr (.inl ⟨setConfigPhase_self .., outstanding_push h.completed⟩) }
  · exact (h.setConfigPhase fun _ hsame => hport hsame.symm).push

/-- A completion that is not the awaited one. -/
theorem Awaits.complete {pointer : CommandPointer} (h : c.Awaits)
    (hother : ∀ k, pointer = .issued k →
      ¬ (c.issued[k]? = some (.enableSlot, c.addressingPort) ∧ c.phase c.addressingPort = .kEnablingSlot) ∧
      ¬ (c.issued[k]? = some (.addressDevice, c.addressingPort) ∧
        c.phase c.addressingPort = .kAddressingDevice)) : (c.complete pointer).Awaits := by
  cases pointer with
  | other type => exact h
  | issued k =>
    rw [Controller.complete]
    split
    · rename_i hlt
      have hstill {type : CommandType} (hout : c.Outstanding type c.addressingPort)
          (hne : c.issued[k]? ≠ some (type, c.addressingPort)) :
          Outstanding { c with completed := k :: c.completed } type c.addressingPort := by
        obtain ⟨j, hj, hissued⟩ := hout
        refine ⟨j, fun hmem => ?_, hissued⟩
        rcases List.mem_cons.mp hmem with rfl | hmem
        · exact hne hissued
        · exact hj hmem
      exact {
        completed := fun j hj => by
          rcases List.mem_cons.mp hj with rfl | hj
          · exact hlt
          · exact h.completed j hj
        phase := fun hlock => by
          rcases h.phase hlock with hreset | ⟨hphase, hout⟩ | ⟨hphase, hout⟩
          · exact .inl hreset
          · exact .inr (.inl ⟨hphase, hstill hout fun hk => (hother k rfl).1 ⟨hk, hphase⟩⟩)
          · exact .inr (.inr ⟨hphase, hstill hout fun hk => (hother k rfl).2 ⟨hk, hphase⟩⟩) }
    · exact h

theorem noteCompletion_completed (h : ∀ k ∈ c.completed, k < c.issued.length) (pointer : CommandPointer) :
    ∀ k ∈ (c.complete pointer).completed, k < (c.complete pointer).issued.length := by
  cases pointer with
  | other type => exact h
  | issued k =>
    rw [Controller.complete]
    split
    · rename_i hlt
      intro j hj
      rcases List.mem_cons.mp hj with rfl | hj
      · exact hlt
      · exact h j hj
    · exact h

theorem complete_slotFree (c : Controller) (pointer : CommandPointer) :
    (c.complete pointer).SlotFree slotId ↔ c.SlotFree slotId := by
  obtain ⟨completed, heq⟩ := c.complete_eq pointer
  rw [heq]
  rfl

theorem complete_acceptsAddress (c : Controller) (pointer : CommandPointer) {rootHubPortNum : Nat} :
    (c.complete pointer).AcceptsAddress slotId rootHubPortNum ↔ c.AcceptsAddress slotId rootHubPortNum := by
  obtain ⟨completed, heq⟩ := c.complete_eq pointer
  rw [heq]
  rfl

/-- A refused completion is not the awaited one. -/
theorem Awaits.refused {e : ControllerEvent} (h : c.Awaits) (hanswered : c.Answered (e, regs))
    (hrefused : (c.noteCompletion e).Refuses e) : (c.noteCompletion e).Awaits := by
  cases e with
  | transfer => exact h
  | portStatusChange => exact h
  | other => exact h
  | commandCompletion pointer slotId rootHubPortNum =>
    refine h.complete fun k hpointer => ?_
    subst hpointer
    obtain ⟨henable, haddress⟩ := hrefused
    rw [noteCompletion, complete_issuerType, issuerType] at henable haddress
    rw [complete_slotFree] at henable
    rw [complete_acceptsAddress] at haddress
    obtain ⟨completed, heq⟩ := c.complete_eq (.issued k)
    rw [heq] at henable
    refine ⟨fun ⟨hissued, hphase⟩ => ?_, fun ⟨hissued, hphase⟩ => ?_⟩
    · rw [hissued] at henable
      exact henable rfl hphase (hanswered.1 hissued hphase)
    · rw [hissued] at haddress
      exact haddress rfl (hanswered.2 hissued hphase)

theorem Awaits.step {e : ControllerEvent × (Nat → PortSC)} (h : c.Awaits) (hanswered : c.Answered e)
    (hstep : c.Step e c') : c'.Awaits := by
  obtain ⟨event, regs⟩ := e
  rw [Step] at hstep
  subst hstep
  have ht := c.processEvent_transition regs event
  revert ht
  generalize (c.processEvent regs event).2 = c₂
  intro ht
  cases ht with
  | refused hrefused => exact h.refused hanswered hrefused
  | waits hphase hlock =>
    refine h.setConfigPhase (h.ne_of_phase ?_)
    change c.phase _ = _ at hphase
    rw [hphase]
    simp [Addressing]
  | locks => exact h.lock
  | enables hreset => exact h.enables hreset
  | addresses => exact .addresses (noteCompletion_completed h.completed _)
  | passes _ haccept => exact .passLock (noteCompletion_completed h.completed _) haccept.2.2
  | configures _ hphase =>
    refine (h.setConfigPhase (h.ne_of_phase ?_)).push
    change c.phase _ = _ at hphase
    rw [hphase]
    simp [Addressing]
  | @configured pointer slotId rootHubPortNum port htype _ hphase =>
    have hnoted : (c.complete pointer).Awaits := by
      rw [noteCompletion, complete_issuerType] at htype
      refine h.complete fun k hpointer => ?_
      subst hpointer
      rw [issuerType] at htype
      constructor
      · intro h
        rw [h.1] at htype
        cases htype
      · intro h
        rw [h.1] at htype
        cases htype
    refine hnoted.setConfigPhase (hnoted.ne_of_phase ?_)
    change (c.complete pointer).phase _ = _ at hphase
    rw [hphase]
    simp [Addressing]

theorem Configured.awaits (h : c.Configured) : c.Awaits := by
  obtain ⟨maxPorts, phase₀, regs, rfl⟩ := h
  refine configurePorts_induction Awaits ⟨fun _ hk => absurd hk List.not_mem_nil, fun hlock => absurd rfl hlock⟩
    (fun c port h hlock hphase => ?_)
    (fun _ _ h _ _ => h.lock) maxPorts le_rfl
  refine h.setConfigPhase (h.ne_of_phase ?_)
  rw [hphase]
  simp [Addressing]

end Controller

open Controller

/-- The completion of the address command of `addressing_port` always looks at the index 0.  It passes the
lock on to a waiting port exactly when none is connected or the lowest waiting index, below that of the last
port, is that of a connected one. -/
theorem next_port_configured {c : Controller} {regs : Nat → PortSC} {pointer : CommandPointer} {slotId : Nat}
    (h : Reachable Configured (GuardedStep Step WellFormed) c) (hlock : c.addressingPort ≠ 0)
    (htype : c.issuerType pointer = some .addressDevice) (haccept : c.AcceptsAddress slotId c.addressingPort) :
    let c' := (c.processEvent regs (.commandCompletion pointer slotId c.addressingPort)).2
    ¬ (c.HandsOver regs c' ∧ c.ScansPorts) ∧
      (c.HandsOver regs c' ↔ (¬ ∃ q, c.WaitsConnected regs q) ∨ c.LowestWaitsConnected regs) := by
  intro c'
  have hports : c.addressingPort ≤ c.maxPorts := locksPort_of_reachable h
  refine ⟨fun hboth => not_scansPorts (by omega) hboth.2, ?_⟩
  have hc' : c' = ((c.complete pointer).passLock regs).setConfigPhase c.addressingPort .kInitializingDevice := by
    have haccept' := (c.complete_acceptsAddress pointer).mpr haccept
    obtain ⟨completed, heq⟩ := c.complete_eq pointer
    show ((c.complete pointer).onCommandCompletionEvent regs (c.issuerType pointer) slotId
      c.addressingPort).2 = _
    rw [htype, onCommandCompletionEvent, onAddressDevice_accepts haccept', heq]
  obtain ⟨completed, heq⟩ := c.complete_eq pointer
  rw [hc', heq]
  exact handsOver_passLock_iff (c := { c with completed }) haccept.2.2

/-- The two ports when the first one has a slot and is given its address. -/
def twoPortsAddressing : Controller :=
  ((twoPorts.processEvent (fun _ => connectedPort) (.portStatusChange 1)).2.processEvent
    (fun _ => connectedPort) (.commandCompletion (.issued 0) 1 1)).2

theorem twoPorts_configured : Configured twoPorts := ⟨2, .kNotConnected, fun _ => connectedPort, rfl⟩

theorem twoPortsAddressing_reachable :
    Reachable Configured (GuardedStep Step WellFormed) twoPortsAddressing := by
  have hstart := twoPorts_configured
  have henabling : Reachable Configured (GuardedStep Step WellFormed)
      (twoPorts.processEvent (fun _ => connectedPort) (.portStatusChange 1)).2 :=
    .next (.start hstart) ⟨(.portStatusChange 1, fun _ => connectedPort), ⟨by decide, by decide⟩, rfl⟩
  refine .next henabling ⟨(.commandCompletion (.issued 0) 1 1, fun _ => connectedPort), ?_, rfl⟩
  intro port hdevice
  cases hdevice

theorem next_port_configured_twoPorts :
    let c' := (twoPortsAddressing.processEvent (fun _ => connectedPort) (.commandCompletion (.issued 1) 1 1)).2
    ¬ (twoPortsAddressing.HandsOver (fun _ => connectedPort) c' ∧ twoPortsAddressing.ScansPorts) ∧
      (twoPortsAddressing.HandsOver (fun _ => connectedPort) c' ↔
        (¬ ∃ q, twoPortsAddressing.WaitsConnected (fun _ => connectedPort) q) ∨
          twoPortsAddressing.LowestWaitsConnected (fun _ => connectedPort)) :=
  next_port_configured twoPortsAddressing_reachable (by decide) (by decide)
    ⟨⟨1, by decide⟩, by decide, by decide⟩

/-- The last port is connected and waits, and the loop ends before it. -/
theorem last_port_forgotten :
    Reachable Configured (GuardedStep Step WellFormed) twoPortsAddressing ∧
      twoPortsAddressing.AcceptsAddress 1 twoPortsAddressing.addressingPort ∧
      twoPortsAddressing.WaitsConnected (fun _ => connectedPort) 2 ∧
      ¬ twoPortsAddressing.HandsOver (fun _ => connectedPort) (twoPortsAddressing.processEvent
        (fun _ => connectedPort) (.commandCompletion (.issued 1) 1 1)).2 ∧
      ¬ twoPortsAddressing.ScansPorts := by
  have hwaits : twoPortsAddressing.WaitsConnected (fun _ => connectedPort) 2 :=
    ⟨by decide, by decide, by decide, by decide⟩
  refine ⟨twoPortsAddressing_reachable, ⟨⟨1, by decide⟩, by decide, by decide⟩, hwaits, fun hover => ?_,
    not_scansPorts (by decide)⟩
  obtain ⟨p, hp, -, -, -, hlocked⟩ := hover ⟨2, hwaits⟩
  -- nobody holds the lock afterwards
  change 0 = p at hlocked
  omega

/-- In a run in which every completed command of the port that holds the lock brings what its handler accepts,
the lock can always be released. -/
theorem lock_releasable {c : Controller} (h : Reachable Configured (GuardedStep Step Answered) c) :
    c.Releasable :=
  (h.invariant (fun _ => Configured.awaits) fun _ _ hinv ⟨_, hanswered, hstep⟩ =>
    hinv.step hanswered hstep).releasable

/-- One connected port, whose Enable Slot command has been issued. -/
def onePortEnabling : Controller :=
  ((configurePorts (fun _ => connectedPort) 1 (unconfigured 1 .kNotConnected)).processEvent
    (fun _ => connectedPort) (.portStatusChange 1)).2

theorem onePortEnabling_reachable {guard : Controller → ControllerEvent × (Nat → PortSC) → Prop}
    (h : ∀ c, guard c (.portStatusChange 1, fun _ => connectedPort)) :
    Reachable Configured (GuardedStep Step guard) onePortEnabling :=
  .next (.start ⟨1, .kNotConnected, fun _ => connectedPort, rfl⟩)
    ⟨(.portStatusChange 1, fun _ => connectedPort), h _, rfl⟩

theorem lock_releasable_onePort : onePortEnabling.addressingPort = 1 ∧
    onePortEnabling.phase 1 = .kEnablingSlot ∧ onePortEnabling.Releasable :=
  ⟨by decide, by decide, lock_releasable (onePortEnabling_reachable fun _ => trivial)⟩

/-- Enable Slot completes with a slot above the limit: the port keeps the lock, and no command is left. -/
theorem lock_kept_after_invalid_slot :
    ∃ c, Reachable Configured (GuardedStep Step AnyEvent) c ∧ c.addressingPort = 1 ∧ ¬ c.Releasable := by
  refine ⟨(onePortEnabling.processEvent (fun _ => connectedPort) (.commandCompletion (.issued 0) 9 0)).2,
    .next (onePortEnabling_reachable fun _ => trivial)
      ⟨(.commandCompletion (.issued 0) 9 0, fun _ => connectedPort), trivial, rfl⟩, by decide, ?_⟩
  intro hreleasable
  rcases hreleasable (by decide) with hreset | ⟨k, hk, hissued⟩ | ⟨k, hk, hissued⟩
  · revert hreset
    decide
  · -- the only command is the one that has completed
    have hlt := (List.getElem?_eq_some_iff.mp hissued).1
    have hzero : k = 0 := Nat.lt_one_iff.mp hlt
    subst hzero
    exact hk (by decide)
  · have hlt := (List.getElem?_eq_some_iff.mp hissued).1
    have hzero : k = 0 := Nat.lt_one_iff.mp hlt
    subst hzero
    exact hk (by decide)

end MikanSaos
