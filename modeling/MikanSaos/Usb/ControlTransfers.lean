import Mathlib.Data.Nat.ModEq
import MikanSaos.Reasoning.Reach
import MikanSaos.Usb.Device
import MikanSaos.Usb.RingRun

/-!
# ControlTransfers — a transfer event finds the setup data of its transfer

The slots of the ring are used again in every lap.  A slot and the one after it always belong together, so an
entry that a failed transfer leaves in the table is right for every later transfer in the same slots; but it
takes a place, and a full table drops the entry of the next transfer.
-/

open Reasoning

namespace MikanSaos

/-! ## What Push leaves in the ring -/

namespace Ring

variable {r r' r'' : Ring} {n p p' p'' q : Nat} {data trb : TRB}

/-- The slot of the TRB that is stored as number `p` from the start. -/
def slotOf (n p : Nat) : Nat := p % (n - 1)

/-- The address of that slot. -/
def addrOf (r : Ring) (p : Nat) : Nat := r.base + 16 * slotOf r.bufSize p

/-- The ring after `p` TRBs. -/
structure Filled (n p : Nat) (r : Ring) : Prop where
  bufSize : r.bufSize = n
  index : r.writeIndex = slotOf n p
  cycle : r.cycleBit = 0 ∨ r.cycleBit = 1

/-- The TRB with the number `q` is there. -/
def Keeps (r : Ring) (q : Nat) (trb : TRB) : Prop := (r.buf (slotOf r.bufSize q)).payload = trb.payload

/-- The ring has got the TRBs from `p` on, and `r'` holds what they have not replaced. -/
structure Advances (n p : Nat) (r : Ring) (p' : Nat) (r' : Ring) : Prop where
  filled : Filled n p' r'
  base : r'.base = r.base
  keeps : ∀ q trb, q < p → p' ≤ q + (n - 1) → r.Keeps q trb → r'.Keeps q trb

theorem slotOf_ne {i j : Nat} (hlt : i < j) (hwindow : j < i + (n - 1)) : slotOf n j ≠ slotOf n i := by
  intro heq
  have hzero : (j - i) % (n - 1) = 0 := Nat.sub_mod_eq_zero_of_mod_eq heq
  rw [Nat.mod_eq_of_lt (by omega)] at hzero
  omega

theorem slotOf_lt (hn : 2 ≤ n) : slotOf n p < n - 1 := Nat.mod_lt _ (by omega)

theorem slotOf_succ (hn : 2 ≤ n) :
    slotOf n (p + 1) = if slotOf n p + 1 = n - 1 then 0 else slotOf n p + 1 := by
  unfold slotOf
  have hlt : p % (n - 1) < n - 1 := Nat.mod_lt _ (by omega)
  rw [← Nat.mod_add_mod]
  split
  · rename_i hwrap
    rw [hwrap, Nat.mod_self]
  · exact Nat.mod_eq_of_lt (by omega)

theorem storeTRB_self (r : Ring) (trb : TRB) : (r.storeTRB trb).buf r.writeIndex = trb.mark r.cycleBit := by
  rw [RingRun.storeTRB_eq]
  have h₀ : ∀ k < (1 : Fin 4), (r.storeWord trb 0).buf r.writeIndex k = trb.mark r.cycleBit k :=
    RingRun.storeWord_agree (i := 0) (by decide) fun k hk => absurd hk (Nat.not_lt_zero _)
  have h₁ : ∀ k < (2 : Fin 4), ((r.storeWord trb 0).storeWord trb 1).buf r.writeIndex k =
      trb.mark r.cycleBit k := RingRun.storeWord_agree (i := 1) (by decide) h₀
  exact RingRun.storeWord_last (RingRun.storeWord_agree (i := 2) (by decide) h₁)

theorem storeTRB_of_ne {k : Nat} (hk : k ≠ r.writeIndex) : (r.storeTRB trb).buf k = r.buf k := by
  calc (r.storeTRB trb).buf k
      _ = (((r.storeWord trb 0).storeWord trb 1).storeWord trb 2).buf k := RingRun.storeWord_of_ne hk
      _ = ((r.storeWord trb 0).storeWord trb 1).buf k := RingRun.storeWord_of_ne hk
      _ = (r.storeWord trb 0).buf k := RingRun.storeWord_of_ne hk
      _ = r.buf k := RingRun.storeWord_of_ne hk

theorem push_eq (r : Ring) (data : TRB) :
    r.push data = (r.base + 16 * r.writeIndex,
      if r.writeIndex + 1 = r.bufSize - 1 then ((r.storeTRB data).advance.storeTRB (linkTRB r.base)).wrap
      else (r.storeTRB data).advance) := by
  by_cases hlast : r.writeIndex + 1 = r.bufSize - 1
  · rw [if_pos hlast]
    exact if_pos hlast
  · rw [if_neg hlast]
    exact if_neg hlast

/-- A call of `Push` writes the slot of its TRB, and perhaps the last slot. -/
theorem push_buf (r : Ring) (data : TRB) (hindex : r.writeIndex < r.bufSize - 1) :
    (r.push data).2.buf r.writeIndex = data.mark r.cycleBit ∧
      ∀ k < r.bufSize - 1, k ≠ r.writeIndex → (r.push data).2.buf k = r.buf k := by
  have hself : (r.storeTRB data).advance.buf r.writeIndex = data.mark r.cycleBit := storeTRB_self r data
  have hother {k : Nat} (hk : k ≠ r.writeIndex) : (r.storeTRB data).advance.buf k = r.buf k :=
    storeTRB_of_ne hk
  rw [push_eq]
  split
  · rename_i hlast
    -- the Link TRB is stored in the last slot
    have hkept {k : Nat} (hk : k < r.bufSize - 1) :
        ((r.storeTRB data).advance.storeTRB (linkTRB r.base)).wrap.buf k =
          (r.storeTRB data).advance.buf k := by
      refine storeTRB_of_ne ?_
      show k ≠ r.writeIndex + 1
      rw [hlast]
      exact hk.ne
    exact ⟨(hkept hindex).trans hself, fun k hk hne => (hkept hk).trans (hother hne)⟩
  · exact ⟨hself, fun k _ hne => hother hne⟩

theorem push_base (r : Ring) (data : TRB) :
    (r.push data).2.base = r.base ∧ (r.push data).2.bufSize = r.bufSize := by
  rw [push_eq]
  split
  · exact ⟨rfl, rfl⟩
  · exact ⟨rfl, rfl⟩

theorem Filled.push_filled (h : r.Filled n p) (hn : 2 ≤ n) (data : TRB) : (r.push data).2.Filled n (p + 1) := by
  refine ⟨(r.push_base data).2.trans h.bufSize, ?_, ?_⟩
  · rw [slotOf_succ hn, ← h.index, ← h.bufSize, push_eq]
    split
    · rfl
    · rfl
  · rw [push_eq]
    split
    · show r.cycleBit ^^^ 1 = 0 ∨ r.cycleBit ^^^ 1 = 1
      rcases h.cycle with hcycle | hcycle
      · rw [hcycle]
        exact .inr rfl
      · rw [hcycle]
        exact .inl rfl
    · exact h.cycle

/-- A call of `Push` stores the TRB in the next slot. -/
theorem Filled.push (h : r.Filled n p) (hn : 2 ≤ n) (data : TRB) :
    (r.push data).1 = r.addrOf p ∧ Advances n p r (p + 1) (r.push data).2 ∧ (r.push data).2.Keeps p data := by
  have hindex : r.writeIndex < r.bufSize - 1 := by
    rw [h.index, h.bufSize]
    exact slotOf_lt hn
  obtain ⟨hself, hother⟩ := r.push_buf data hindex
  obtain ⟨hbase, hsize⟩ := r.push_base data
  refine ⟨?_, ⟨h.push_filled hn data, hbase, fun q trb hq hwindow hkept => ?_⟩, ?_⟩
  · rw [addrOf, h.bufSize, ← h.index, push_eq]
  · unfold Keeps at hkept ⊢
    have hlt : slotOf r.bufSize q < r.bufSize - 1 := h.bufSize.symm ▸ slotOf_lt hn
    have hne : slotOf r.bufSize q ≠ r.writeIndex := by
      rw [h.index, h.bufSize]
      exact (slotOf_ne hq (by omega)).symm
    rw [hsize, hother _ hlt hne, hkept]
  · unfold Keeps
    rw [hsize, h.bufSize, ← h.index, hself]
    exact TRB.payload_mark h.cycle

theorem Advances.trans (h : Advances n p r p' r') (h' : Advances n p' r' p'' r'') (hp : p ≤ p')
    (hp' : p' ≤ p'') : Advances n p r p'' r'' where
  filled := h'.filled
  base := h'.base.trans h.base
  keeps q trb hq hwindow hkept :=
    h'.keeps q trb (by omega) hwindow (h.keeps q trb hq (by omega) hkept)

theorem Advances.addrOf (h : Advances n p r p' r') (hr : r.bufSize = n) : r'.addrOf q = r.addrOf q := by
  rw [Ring.addrOf, Ring.addrOf, h.base, h.filled.bufSize, hr]

/-- Reading the address of a slot. -/
theorem trbAt_addrOf (r : Ring) (p : Nat) : r.trbAt (r.addrOf p) = r.buf (slotOf r.bufSize p) := by
  unfold trbAt addrOf
  congr 1
  omega

end Ring

/-! ## Runs of the control ring -/

/-- A transfer that has been started: the number of its setup stage on the ring, and what it asked for. -/
structure Transfer where
  start : Nat
  setupData : SetupData
  dataIn : Bool
  deriving DecidableEq

/-- Not in the source: `pushed` counts the TRBs, and `outstanding` are the transfers without an event. -/
structure ControlRun where
  device : Device
  pushed : Nat
  outstanding : List Transfer

/-- A transfer completes with success or a short packet, or it fails. -/
inductive ControlEvent where
  | controlIn (setupData : SetupData) (buf : BitVec 64) (len : Int) (issuer : Option Nat)
  | controlOut (setupData : SetupData) (issuer : Option Nat)
  | completed (t : Transfer) (trb : TRB)
  | failed (t : Transfer) (trb : TRB)

namespace ControlRun

open Device

variable {ep : EndpointID} {n : Nat} {r r' : Ring} {s s' : ControlRun} {t : Transfer} {trb : TRB}

/-- The second TRB of a transfer is the one whose completion is reported. -/
def Reports (ep : EndpointID) (s : ControlRun) (t : Transfer) (trb : TRB) : Prop :=
  trb.endpointID = ep ∧ ∃ r, s.device.transferRings (ep.dci - 1) = some r ∧
    trb.eventPointer = r.addrOf (t.start + 1)

/-- The endpoint's ring has just been made, and no transfer has been started. -/
def Fresh (ep : EndpointID) (n : Nat) (s : ControlRun) : Prop :=
  0 ≤ ep.number ∧ ep.number ≤ 15 ∧ 2 ≤ n ∧
    (∃ base, s.device.transferRings (ep.dci - 1) = some ⟨fun _ _ => 0, base, n, 1, 0⟩) ∧
    s.device.setupStageMap = List.replicate 16 (none, 0) ∧ s.pushed = 0 ∧ s.outstanding = []

inductive Step (ep : EndpointID) (s : ControlRun) : ControlEvent → ControlRun → Prop
  | controlIn (setupData : SetupData) (buf : BitVec 64) (len : Int) (issuer : Option Nat) :
      Step ep s (.controlIn setupData buf len issuer)
        ⟨(s.device.controlIn ep setupData buf len issuer).2, s.pushed + 3,
          ⟨s.pushed, setupData, true⟩ :: s.outstanding⟩
  | controlOut (setupData : SetupData) (issuer : Option Nat) :
      Step ep s (.controlOut setupData issuer)
        ⟨(s.device.controlOut ep setupData issuer).2, s.pushed + 2,
          ⟨s.pushed, setupData, false⟩ :: s.outstanding⟩
  | completed (t : Transfer) (trb : TRB) (ht : t ∈ s.outstanding) (hreports : s.Reports ep t trb)
      (hcode : succeeded trb) :
      Step ep s (.completed t trb)
        ⟨(s.device.onTransferEventReceived trb).2, s.pushed, s.outstanding.erase t⟩
  | failed (t : Transfer) (trb : TRB) (ht : t ∈ s.outstanding) (hcode : ¬ succeeded trb) :
      Step ep s (.failed t trb)
        ⟨(s.device.onTransferEventReceived trb).2, s.pushed, s.outstanding.erase t⟩

/-- There are slots for that many TRBs more that no outstanding transfer is in. -/
def Fits (n : Nat) (s : ControlRun) (size : Nat) : Prop :=
  size ≤ n - 1 ∧ ∀ t ∈ s.outstanding, s.pushed + size ≤ t.start + (n - 1)

/-- At most 16 transfers are outstanding, and their TRBs do not exceed the ring. -/
def WithinCapacity (n : Nat) (s : ControlRun) : ControlEvent → Prop
  | .controlIn .. => s.outstanding.length < 16 ∧ s.Fits n 3
  | .controlOut .. => s.outstanding.length < 16 ∧ s.Fits n 2
  | _ => True

/-- The table has a free place, or an entry that an earlier transfer has left for the same slots. -/
def FindsPlace (ep : EndpointID) (s : ControlRun) : Prop :=
  ∀ r, s.device.transferRings (ep.dci - 1) = some r →
    ArrayMap.HasRoom s.device.setupStageMap ∨ ArrayMap.Holds s.device.setupStageMap (r.addrOf (s.pushed + 1))

/-- A call that is within the capacity and finds a place in the table. -/
def Recorded (ep : EndpointID) (n : Nat) (s : ControlRun) : ControlEvent → Prop
  | .controlIn setupData buf len issuer =>
    s.WithinCapacity n (.controlIn setupData buf len issuer) ∧ s.FindsPlace ep
  | .controlOut setupData issuer => s.WithinCapacity n (.controlOut setupData issuer) ∧ s.FindsPlace ep
  | _ => True

/-- What the ring and the table know of the outstanding transfers. -/
structure Inv (ep : EndpointID) (n : Nat) (r : Ring) (s : ControlRun) : Prop where
  number : 0 ≤ ep.number ∧ ep.number ≤ 15
  size : 2 ≤ n
  ring : s.device.transferRings (ep.dci - 1) = some r
  filled : r.Filled n s.pushed
  window : ∀ t ∈ s.outstanding, t.start + 1 < s.pushed ∧ s.pushed ≤ t.start + (n - 1)
  setup : ∀ t ∈ s.outstanding, ∃ transferType, r.Keeps t.start (setupStageTRB t.setupData transferType)
  reporter : ∀ t ∈ s.outstanding, ∃ trb, r.Keeps (t.start + 1) trb ∧
    (trb.trbType = DataStageTRB.Type ∨ trb.trbType = StatusStageTRB.Type)
  entries : ∀ key value, (some key, value) ∈ s.device.setupStageMap →
    ∃ p, key = r.addrOf (p + 1) ∧ value = r.addrOf p
  held : ∀ t ∈ s.outstanding, ArrayMap.Holds s.device.setupStageMap (r.addrOf (t.start + 1))
  nodup : s.outstanding.Nodup
  apart : ∀ t ∈ s.outstanding, ∀ u ∈ s.outstanding, t.start = u.start → t = u

/-- A slot and the one before it. -/
theorem addrOf_injective {i j : Nat} (h : r.addrOf (i + 1) = r.addrOf (j + 1)) : r.addrOf i = r.addrOf j := by
  unfold Ring.addrOf Ring.slotOf at h ⊢
  have hmod : Nat.ModEq (r.bufSize - 1) (i + 1) (j + 1) := by
    show (i + 1) % (r.bufSize - 1) = (j + 1) % (r.bufSize - 1)
    omega
  have heq : i % (r.bufSize - 1) = j % (r.bufSize - 1) := Nat.ModEq.add_right_cancel' 1 hmod
  rw [heq]

/-- A call starts a transfer. -/
theorem Inv.call {size : Nat} {transferType : BitVec 2} (h : s.Inv ep n r) (t : Transfer)
    (hadvances : Ring.Advances n s.pushed r (s.pushed + size) r') (hstart : t.start = s.pushed)
    (hsetup : r'.Keeps s.pushed (setupStageTRB t.setupData transferType))
    (hreporter : r'.Keeps (s.pushed + 1) trb)
    (htype : trb.trbType = DataStageTRB.Type ∨ trb.trbType = StatusStageTRB.Type)
    (hsize : 2 ≤ size) (hfits : s.Fits n size) (hplace : s.FindsPlace ep)
    (hring : s'.device.transferRings (ep.dci - 1) = some r')
    (htable : s'.device.setupStageMap =
      s.device.setupStageMap.put (r.addrOf (s.pushed + 1)) (r.addrOf s.pushed))
    (hpushed : s'.pushed = s.pushed + size) (hout : s'.outstanding = t :: s.outstanding) :
    s'.Inv ep n r' where
  number := h.number
  size := h.size
  ring := hring
  filled := hpushed ▸ hadvances.filled
  window u hu := by
    rw [hout] at hu
    rw [hpushed]
    rcases List.mem_cons.mp hu with rfl | hu
    · have hroom := hfits.1
      omega
    · have hwindow := h.window u hu
      have hroom := hfits.2 u hu
      omega
  setup u hu := by
    rw [hout] at hu
    rcases List.mem_cons.mp hu with rfl | hu
    · exact ⟨transferType, hstart ▸ hsetup⟩
    · obtain ⟨transferType, hkept⟩ := h.setup u hu
      have hwindow := h.window u hu
      exact ⟨transferType, hadvances.keeps _ _ (by omega) (hfits.2 u hu) hkept⟩
  reporter u hu := by
    rw [hout] at hu
    rcases List.mem_cons.mp hu with rfl | hu
    · exact ⟨trb, hstart ▸ hreporter, htype⟩
    · obtain ⟨trb, hkept, htype⟩ := h.reporter u hu
      have hroom := hfits.2 u hu
      exact ⟨trb, hadvances.keeps _ _ (h.window u hu).1 (by omega) hkept, htype⟩
  entries key value hmem := by
    rw [htable] at hmem
    rcases ArrayMap.mem_of_mem_put hmem with hmem | ⟨rfl, rfl⟩
    · obtain ⟨p, hkey, hvalue⟩ := h.entries key value hmem
      refine ⟨p, ?_, ?_⟩
      · rw [hadvances.addrOf h.filled.bufSize]
        exact hkey
      · rw [hadvances.addrOf h.filled.bufSize]
        exact hvalue
    · refine ⟨s.pushed, ?_, ?_⟩
      · rw [hadvances.addrOf h.filled.bufSize]
      · rw [hadvances.addrOf h.filled.bufSize]
  held u hu := by
    rw [hout] at hu
    rw [htable, hadvances.addrOf h.filled.bufSize]
    rcases List.mem_cons.mp hu with rfl | hu
    · rw [hstart]
      rcases hplace r h.ring with hroom | ⟨value, hmem⟩
      · exact ⟨_, ArrayMap.mem_put_self hroom⟩
      · exact ⟨value, ArrayMap.mem_put_of_mem hmem⟩
    · obtain ⟨value, hmem⟩ := h.held u hu
      exact ⟨value, ArrayMap.mem_put_of_mem hmem⟩
  nodup := by
    rw [hout, List.nodup_cons]
    refine ⟨fun ht => ?_, h.nodup⟩
    have hwindow := h.window t ht
    omega
  apart u hu v hv heq := by
    rw [hout] at hu hv
    rcases List.mem_cons.mp hu with rfl | hold
    · rcases List.mem_cons.mp hv with rfl | hold
      · rfl
      · have hwindow := h.window v hold
        omega
    · rcases List.mem_cons.mp hv with rfl | hold'
      · have hwindow := h.window u hold
        omega
      · exact h.apart u hold v hold' heq

theorem putEventWaiter_eq (d : Device) (setupData : SetupData) (issuer : Option Nat) :
    ∃ eventWaiters, d.putEventWaiter setupData issuer = { d with eventWaiters } := by
  cases issuer with
  | none => exact ⟨_, rfl⟩
  | some driver => exact ⟨_, rfl⟩

/-- The TRBs of a transfer with a data stage, one after the other. -/
theorem controlIn_eq {d : Device} {setupData : SetupData} {buf : BitVec 64} {len : Int} {issuer : Option Nat}
    {r₁ r₂ r₃ : Ring} {setup data status : Nat} (hnumber : 0 ≤ ep.number ∧ ep.number ≤ 15)
    (hring : d.transferRings (ep.dci - 1) = some r)
    (hsetup : r.push (setupStageTRB setupData SetupStageTRB.kInDataStage) = (setup, r₁))
    (hdata : r₁.push (dataStageTRB buf len) = (data, r₂))
    (hstatus : r₂.push (statusStageTRB 0 0) = (status, r₃)) :
    ∃ eventWaiters, d.controlIn ep setupData buf len issuer = (.kSuccess,
      ⟨Function.update d.transferRings (ep.dci - 1) (some r₃), d.setupStageMap.put data setup,
        eventWaiters⟩) := by
  obtain ⟨eventWaiters, heq⟩ := putEventWaiter_eq d setupData issuer
  have hvalid : ¬ (ep.number < 0 ∨ 15 < ep.number) := by omega
  refine ⟨eventWaiters, ?_⟩
  unfold Device.controlIn
  rw [if_neg hvalid, heq]
  dsimp only
  rw [hring]
  dsimp only
  rw [hsetup]
  dsimp only
  rw [hdata]
  dsimp only
  rw [hstatus]

theorem controlOut_eq {d : Device} {setupData : SetupData} {issuer : Option Nat} {r₁ r₂ : Ring}
    {setup status : Nat} (hnumber : 0 ≤ ep.number ∧ ep.number ≤ 15)
    (hring : d.transferRings (ep.dci - 1) = some r)
    (hsetup : r.push (setupStageTRB setupData SetupStageTRB.kNoDataStage) = (setup, r₁))
    (hstatus : r₁.push (statusStageTRB 1 1) = (status, r₂)) :
    ∃ eventWaiters, d.controlOut ep setupData issuer = (.kSuccess,
      ⟨Function.update d.transferRings (ep.dci - 1) (some r₂), d.setupStageMap.put status setup,
        eventWaiters⟩) := by
  obtain ⟨eventWaiters, heq⟩ := putEventWaiter_eq d setupData issuer
  have hvalid : ¬ (ep.number < 0 ∨ 15 < ep.number) := by omega
  refine ⟨eventWaiters, ?_⟩
  unfold Device.controlOut
  rw [if_neg hvalid, heq]
  dsimp only
  rw [hring]
  dsimp only
  rw [hsetup]
  dsimp only
  rw [hstatus]

theorem Inv.controlIn {setupData : SetupData} {buf : BitVec 64} {len : Int} {issuer : Option Nat}
    (h : s.Inv ep n r) (hfits : s.Fits n 3) (hplace : s.FindsPlace ep) :
    ∃ r', Inv ep n r' ⟨(s.device.controlIn ep setupData buf len issuer).2, s.pushed + 3,
      ⟨s.pushed, setupData, true⟩ :: s.outstanding⟩ := by
  have hsetup := h.filled.push h.size (setupStageTRB setupData SetupStageTRB.kInDataStage)
  generalize hpush₁ : r.push (setupStageTRB setupData SetupStageTRB.kInDataStage) = call at hsetup
  obtain ⟨setup, r₁⟩ := call
  obtain ⟨hsetupAddr, hsetup, hsetupKept⟩ := hsetup
  have hdata := hsetup.filled.push h.size (dataStageTRB buf len)
  generalize hpush₂ : r₁.push (dataStageTRB buf len) = call at hdata
  obtain ⟨data, r₂⟩ := call
  obtain ⟨hdataAddr, hdata, hdataKept⟩ := hdata
  have hstatus := hdata.filled.push h.size (statusStageTRB 0 0)
  generalize hpush₃ : r₂.push (statusStageTRB 0 0) = call at hstatus
  obtain ⟨status, r₃⟩ := call
  obtain ⟨-, hstatus, -⟩ := hstatus
  obtain ⟨eventWaiters, hcall⟩ := controlIn_eq h.number h.ring hpush₁ hpush₂ hpush₃
  rw [hsetup.addrOf h.filled.bufSize] at hdataAddr
  have hroom := hfits.1
  -- all three are in different slots
  have hkept {p : Nat} {trb : TRB} (hp : s.pushed ≤ p) (hlt : p < s.pushed + 2) (hkeeps : r₂.Keeps p trb) :
      r₃.Keeps p trb := hstatus.keeps p trb hlt (by omega) hkeeps
  have hadvances : Ring.Advances n s.pushed r (s.pushed + 3) r₃ :=
    (hsetup.trans hdata (by omega) (by omega)).trans hstatus (by omega) (by omega)
  rw [hcall]
  exact ⟨r₃, h.call ⟨s.pushed, setupData, true⟩ hadvances rfl
    (hkept le_rfl (by omega) (hdata.keeps _ _ (by omega) (by omega) hsetupKept))
    (hkept (by omega) (by omega) hdataKept) (.inl (dataStageTRB_trbType buf len)) (by decide) hfits hplace
    (Function.update_self ..) (congrArg₂ s.device.setupStageMap.put hdataAddr hsetupAddr) rfl rfl⟩

theorem Inv.controlOut {setupData : SetupData} {issuer : Option Nat} (h : s.Inv ep n r)
    (hfits : s.Fits n 2) (hplace : s.FindsPlace ep) :
    ∃ r', Inv ep n r' ⟨(s.device.controlOut ep setupData issuer).2, s.pushed + 2,
      ⟨s.pushed, setupData, false⟩ :: s.outstanding⟩ := by
  have hsetup := h.filled.push h.size (setupStageTRB setupData SetupStageTRB.kNoDataStage)
  generalize hpush₁ : r.push (setupStageTRB setupData SetupStageTRB.kNoDataStage) = call at hsetup
  obtain ⟨setup, r₁⟩ := call
  obtain ⟨hsetupAddr, hsetup, hsetupKept⟩ := hsetup
  have hstatus := hsetup.filled.push h.size (statusStageTRB 1 1)
  generalize hpush₂ : r₁.push (statusStageTRB 1 1) = call at hstatus
  obtain ⟨status, r₂⟩ := call
  obtain ⟨hstatusAddr, hstatus, hstatusKept⟩ := hstatus
  obtain ⟨eventWaiters, hcall⟩ := controlOut_eq h.number h.ring hpush₁ hpush₂
  rw [hsetup.addrOf h.filled.bufSize] at hstatusAddr
  have hroom := hfits.1
  have hadvances : Ring.Advances n s.pushed r (s.pushed + 2) r₂ :=
    hsetup.trans hstatus (by omega) (by omega)
  rw [hcall]
  exact ⟨r₂, h.call ⟨s.pushed, setupData, false⟩ hadvances rfl
    (hstatus.keeps _ _ (by omega) (by omega) hsetupKept) hstatusKept (.inr (statusStageTRB_trbType 1 1))
    (by decide) hfits hplace (Function.update_self ..)
    (congrArg₂ s.device.setupStageMap.put hstatusAddr hsetupAddr) rfl rfl⟩

/-- The event of an outstanding transfer is answered with its setup data, and its entry is taken out. -/
theorem Inv.received (h : s.Inv ep n r) (ht : t ∈ s.outstanding) (hreports : s.Reports ep t trb)
    (hcode : succeeded trb) :
    (∃ buf len, (s.device.onTransferEventReceived trb).1 = .controlCompleted ep t.setupData buf len) ∧
      (s.device.onTransferEventReceived trb).2 = { s.device with
        setupStageMap := s.device.setupStageMap.delete (r.addrOf (t.start + 1)) } := by
  obtain ⟨hep, r₀, hr₀, hpointer⟩ := hreports
  rw [h.ring] at hr₀
  cases hr₀
  have hread (p : Nat) : s.device.trbAt ep (r.addrOf p) = r.buf (Ring.slotOf r.bufSize p) := by
    unfold Device.trbAt
    rw [h.ring]
    exact r.trbAt_addrOf p
  -- the entry that is found may be an older one, but it names the same slots
  obtain ⟨value, hget⟩ := (h.held t ht).get
  have hvalue : value = r.addrOf t.start := by
    obtain ⟨p, hkey, hvalue⟩ := h.entries _ _ (ArrayMap.mem_of_get hget)
    exact hvalue.trans (addrOf_injective hkey).symm
  obtain ⟨transferType, hsetup⟩ := h.setup t ht
  have hdata : (s.device.trbAt ep (r.addrOf t.start)).setupData = t.setupData := by
    rw [hread, ← TRB.payload_setupData, hsetup, TRB.payload_setupData, setupStageTRB_setupData]
  obtain ⟨issuer, hkept, htype⟩ := h.reporter t ht
  have hissuer : (s.device.trbAt ep (r.addrOf (t.start + 1))).trbType = issuer.trbType := by
    rw [hread, ← TRB.payload_trbType, hkept, TRB.payload_trbType]
  unfold Device.onTransferEventReceived
  rw [if_neg (not_not.mpr hcode), hep, hpointer]
  dsimp only
  rw [hissuer, hget, hvalue]
  rcases htype with htype | htype
  · rw [htype, if_neg (by decide)]
    dsimp only
    rw [if_pos rfl, hdata]
    exact ⟨⟨_, _, rfl⟩, rfl⟩
  · rw [htype, if_neg (by decide)]
    dsimp only
    rw [if_neg (by decide), if_pos rfl, hdata]
    exact ⟨⟨_, _, rfl⟩, rfl⟩

/-- Two outstanding transfers are in different slots. -/
theorem Inv.reporter_ne {u : Transfer} (h : s.Inv ep n r) (ht : t ∈ s.outstanding)
    (hu : u ∈ s.outstanding.erase t) : r.addrOf (u.start + 1) ≠ r.addrOf (t.start + 1) := by
  obtain ⟨hne, hu⟩ := h.nodup.mem_erase_iff.mp hu
  have hstart : u.start ≠ t.start := fun heq => hne (h.apart u hu t ht heq)
  have hwindow := h.window t ht
  have hwindow' := h.window u hu
  have hslot : Ring.slotOf n (u.start + 1) ≠ Ring.slotOf n (t.start + 1) := by
    rcases Nat.lt_or_gt_of_ne hstart with hlt | hlt
    · exact (Ring.slotOf_ne (by omega) (by omega)).symm
    · exact Ring.slotOf_ne (by omega) (by omega)
  intro heq
  unfold Ring.addrOf at heq
  rw [h.filled.bufSize] at heq
  omega

theorem Inv.completed (h : s.Inv ep n r) (ht : t ∈ s.outstanding) (hreports : s.Reports ep t trb)
    (hcode : succeeded trb) :
    Inv ep n r ⟨(s.device.onTransferEventReceived trb).2, s.pushed, s.outstanding.erase t⟩ := by
  rw [(h.received ht hreports hcode).2]
  exact {
    number := h.number
    size := h.size
    ring := h.ring
    filled := h.filled
    window := fun u hu => h.window u (List.mem_of_mem_erase hu)
    setup := fun u hu => h.setup u (List.mem_of_mem_erase hu)
    reporter := fun u hu => h.reporter u (List.mem_of_mem_erase hu)
    entries := fun key value hmem => h.entries key value (ArrayMap.mem_of_mem_delete hmem)
    held := fun u hu => by
      obtain ⟨value, hmem⟩ := h.held u (List.mem_of_mem_erase hu)
      exact ⟨value, ArrayMap.mem_delete_of_ne hmem (h.reporter_ne ht hu)⟩
    nodup := h.nodup.erase t
    apart := fun u hu v hv => h.apart u (List.mem_of_mem_erase hu) v (List.mem_of_mem_erase hv) }

theorem Inv.failed (h : s.Inv ep n r) (hcode : ¬ succeeded trb) :
    Inv ep n r ⟨(s.device.onTransferEventReceived trb).2, s.pushed, s.outstanding.erase t⟩ := by
  have hsame : (s.device.onTransferEventReceived trb).2 = s.device := by
    unfold Device.onTransferEventReceived
    rw [if_pos hcode]
  rw [hsame]
  exact {
    number := h.number
    size := h.size
    ring := h.ring
    filled := h.filled
    window := fun u hu => h.window u (List.mem_of_mem_erase hu)
    setup := fun u hu => h.setup u (List.mem_of_mem_erase hu)
    reporter := fun u hu => h.reporter u (List.mem_of_mem_erase hu)
    entries := h.entries
    held := fun u hu => h.held u (List.mem_of_mem_erase hu)
    nodup := h.nodup.erase t
    apart := fun u hu v hv => h.apart u (List.mem_of_mem_erase hu) v (List.mem_of_mem_erase hv) }

theorem Inv.step {e : ControlEvent} (h : s.Inv ep n r) (hrecorded : s.Recorded ep n e) (hstep : Step ep s e s') :
    ∃ r', s'.Inv ep n r' := by
  cases hstep with
  | controlIn setupData buf len issuer => exact h.controlIn hrecorded.1.2 hrecorded.2
  | controlOut setupData issuer => exact h.controlOut hrecorded.1.2 hrecorded.2
  | completed t trb ht hreports hcode => exact ⟨r, h.completed ht hreports hcode⟩
  | failed t trb ht hcode => exact ⟨r, h.failed hcode⟩

theorem Fresh.inv (h : s.Fresh ep n) : ∃ r, s.Inv ep n r := by
  obtain ⟨hlow, hhigh, hn, ⟨base, hring⟩, htable, hpushed, hout⟩ := h
  refine ⟨_, {
    number := ⟨hlow, hhigh⟩
    size := hn
    ring := hring
    filled := ⟨rfl, ?_, .inr rfl⟩
    window := fun u hu => ?_
    setup := fun u hu => ?_
    reporter := fun u hu => ?_
    entries := fun key value hmem => ?_
    held := fun u hu => ?_
    nodup := ?_
    apart := fun u hu => ?_ }⟩
  · rw [hpushed]
    exact (Nat.zero_mod _).symm
  · rw [hout] at hu
    cases hu
  · rw [hout] at hu
    cases hu
  · rw [hout] at hu
    cases hu
  · rw [htable] at hmem
    cases List.eq_of_mem_replicate hmem
  · rw [hout] at hu
    cases hu
  · rw [hout]
    exact .nil
  · rw [hout] at hu
    cases hu

end ControlRun

open ControlRun

/-- The event of an outstanding transfer that succeeds is always answered with the setup data of that
transfer. -/
theorem control_transfer_matched {ep : EndpointID} {n : Nat} {s : ControlRun}
    (h : Reachable (Fresh ep n) (GuardedStep (Step ep) (Recorded ep n)) s) {t : Transfer}
    (ht : t ∈ s.outstanding) {trb : TRB} (hreports : s.Reports ep t trb) (hcode : Device.succeeded trb) :
    ∃ buf len, (s.device.onTransferEventReceived trb).1 = .controlCompleted ep t.setupData buf len := by
  have hinv : ∃ r, s.Inv ep n r := by
    clear ht hreports
    induction h with
    | start hfresh => exact hfresh.inv
    | next _ hstep ih =>
      obtain ⟨r, hinv⟩ := ih
      obtain ⟨e, hrecorded, hstep⟩ := hstep
      exact hinv.step hrecorded hstep
  obtain ⟨r, hinv⟩ := hinv
  exact (hinv.received ht hreports hcode).1

/-- The default control endpoint with a ring of 32 slots at address 64. -/
def defaultControl : ControlRun :=
  ⟨⟨fun _ => some ⟨fun _ _ => 0, 64, 32, 1, 0⟩, List.replicate 16 (none, 0), List.replicate 4 (none, 0)⟩, 0,
    []⟩

theorem defaultControl_fresh : Fresh ⟨1⟩ 32 defaultControl :=
  ⟨by decide, by decide, by decide, ⟨64, rfl⟩, rfl, rfl, rfl⟩

/-- A Transfer Event for the TRB with the number `p`. -/
def transferEvent (p : Nat) (completionCode : BitVec 8) : TRB :=
  ![BitVec.ofNat 32 (64 + 16 * Ring.slotOf 32 p), 0, completionCode ++ 0#24, 0#8 ++ 0#3 ++ 1#5 ++ 32#6 ++ 0#10]

def setConfiguration : SetupData := ⟨0, 9, 1, 0, 0⟩

/-- A transfer without a data stage is started. -/
def startTransfer (s : ControlRun) : ControlRun :=
  ⟨(s.device.controlOut ⟨1⟩ setConfiguration none).2, s.pushed + 2,
    ⟨s.pushed, setConfiguration, false⟩ :: s.outstanding⟩

theorem control_transfer_matched_first :
    ∃ buf len, ((startTransfer defaultControl).device.onTransferEventReceived (transferEvent 1 1)).1 =
      .controlCompleted ⟨1⟩ setConfiguration buf len := by
  have hplace : defaultControl.FindsPlace ⟨1⟩ := fun _ _ => .inl ⟨0, List.mem_cons_self⟩
  have hfits : defaultControl.Fits 32 2 := ⟨by decide, fun t ht => by cases ht⟩
  have hrun : Reachable (Fresh ⟨1⟩ 32) (GuardedStep (Step ⟨1⟩) (Recorded ⟨1⟩ 32)) (startTransfer defaultControl) :=
    .next (.start defaultControl_fresh)
      ⟨.controlOut setConfiguration none, ⟨⟨by decide, hfits⟩, hplace⟩, .controlOut ..⟩
  have hring : ∃ r, (startTransfer defaultControl).device.transferRings 0 = some r ∧
      (transferEvent 1 1).eventPointer = r.addrOf 1 := ⟨_, rfl, by decide⟩
  exact control_transfer_matched hrun (t := ⟨0, setConfiguration, false⟩) List.mem_cons_self
    ⟨by decide, hring⟩ (by decide)

/-- The transfer stalls. -/
def stalledTransfer (s : ControlRun) : ControlRun :=
  ⟨((startTransfer s).device.onTransferEventReceived (transferEvent (s.pushed + 1) 6)).2, s.pushed + 2,
    s.outstanding⟩

def stalledTransfers : Nat → ControlRun
  | 0 => defaultControl
  | n + 1 => stalledTransfer (stalledTransfers n)

theorem startTransfer_reachable {s : ControlRun} (hnone : s.outstanding = [])
    (hrun : Reachable (Fresh ⟨1⟩ 32) (GuardedStep (Step ⟨1⟩) (WithinCapacity 32)) s) :
    Reachable (Fresh ⟨1⟩ 32) (GuardedStep (Step ⟨1⟩) (WithinCapacity 32)) (startTransfer s) := by
  refine .next hrun ⟨.controlOut setConfiguration none, ⟨?_, by decide, fun t ht => ?_⟩, .controlOut ..⟩
  · rw [hnone]
    decide
  · rw [hnone] at ht
    cases ht

theorem stalledTransfers_reachable (n : Nat) : (stalledTransfers n).outstanding = [] ∧
    Reachable (Fresh ⟨1⟩ 32) (GuardedStep (Step ⟨1⟩) (WithinCapacity 32)) (stalledTransfers n) := by
  induction n with
  | zero => exact ⟨rfl, .start defaultControl_fresh⟩
  | succ n ih =>
    obtain ⟨hnone, hrun⟩ := ih
    refine ⟨hnone, .next (startTransfer_reachable hnone hrun)
      ⟨.failed ⟨(stalledTransfers n).pushed, setConfiguration, false⟩
        (transferEvent ((stalledTransfers n).pushed + 1) 6), trivial, ?_⟩⟩
    have hstalled : ¬ Device.succeeded (transferEvent ((stalledTransfers n).pushed + 1) 6) := by
      show ¬ ((6#8 ++ 0#24).extractLsb' 24 8 = 1 ∨ (6#8 ++ 0#24).extractLsb' 24 8 = 13)
      decide
    have hstep : Step ⟨1⟩ (startTransfer (stalledTransfers n)) _ _ :=
      .failed ⟨(stalledTransfers n).pushed, setConfiguration, false⟩ _ List.mem_cons_self hstalled
    rw [startTransfer, List.erase_cons_head] at hstep
    exact hstep

/-- After sixteen transfers that stalled the table is full: the next one succeeds and is answered with an
error. -/
theorem setup_stage_dropped :
    ∃ s t trb, Reachable (Fresh ⟨1⟩ 32) (GuardedStep (Step ⟨1⟩) (WithinCapacity 32)) s ∧ t ∈ s.outstanding ∧
      s.outstanding.length = 1 ∧ s.Reports ⟨1⟩ t trb ∧ Device.succeeded trb ∧
      (s.device.onTransferEventReceived trb).1 = .error .kNoCorrespondingSetupStage := by
  obtain ⟨hnone, hrun⟩ := stalledTransfers_reachable 16
  refine ⟨startTransfer (stalledTransfers 16), ⟨32, setConfiguration, false⟩, transferEvent 33 1,
    startTransfer_reachable hnone hrun, List.mem_cons_self, rfl, ⟨by decide, _, rfl, ?_⟩, by decide, ?_⟩
  · decide +kernel
  · decide +kernel

end MikanSaos
