import MikanSaos.Error
import MikanSaos.Usb.ArrayMap
import MikanSaos.Usb.Ring

/-!
# Device — the control transfers of a USB device

A control transfer is two or three TRBs on the ring of an endpoint.  Its setup stage is remembered under the
address of the TRB that reports the completion, and found again when that event comes.
-/

namespace MikanSaos

/-! ## The device -/

/-- A class driver is its number. -/
structure Device where
  transferRings : Int → Option Ring
  setupStageMap : ArrayMap Nat Nat
  eventWaiters : ArrayMap SetupData Nat

/-- What a transfer event leads to: an error, or the call of a completion handler. -/
inductive Received where
  | error (err : Error)
  | interruptCompleted (ep : EndpointID) (buf : BitVec 64) (len : Int)
  | controlCompleted (ep : EndpointID) (setupData : SetupData) (buf : BitVec 64) (len : Int)
  deriving DecidableEq

/-- The TRB of the ring at an address. -/
def Ring.trbAt (r : Ring) (addr : Nat) : TRB := r.buf ((addr - r.base) / 16)

namespace Device

/-- The TRB in memory that an event of the endpoint points to. -/
def trbAt (d : Device) (ep : EndpointID) (addr : Nat) : TRB :=
  ((d.transferRings (ep.dci - 1)).map fun tr => tr.trbAt addr).getD fun _ => 0

def putEventWaiter (d : Device) (setupData : SetupData) (issuer : Option Nat) : Device :=
  match issuer with
  | some driver => { d with eventWaiters := d.eventWaiters.put setupData driver }
  | none => d

/-- The casts of what `Push` returns are left out, they always succeed. -/
def controlIn (d : Device) (ep : EndpointID) (setupData : SetupData) (buf : BitVec 64) (len : Int)
    (issuer : Option Nat) : Error × Device :=
  if ep.number < 0 ∨ 15 < ep.number then (.kInvalidEndpointNumber, d)
  else
    let d := d.putEventWaiter setupData issuer
    match d.transferRings (ep.dci - 1) with
    | none => (.kTransferRingNotSet, d)
    | some tr =>
      let setup := tr.push (setupStageTRB setupData SetupStageTRB.kInDataStage)
      let data := setup.2.push (dataStageTRB buf len)
      let status := data.2.push (statusStageTRB 0 0)
      (.kSuccess, { d with
        transferRings := Function.update d.transferRings (ep.dci - 1) (some status.2)
        setupStageMap := d.setupStageMap.put data.1 setup.1 })

def controlOut (d : Device) (ep : EndpointID) (setupData : SetupData) (issuer : Option Nat) : Error × Device :=
  if ep.number < 0 ∨ 15 < ep.number then (.kInvalidEndpointNumber, d)
  else
    let d := d.putEventWaiter setupData issuer
    match d.transferRings (ep.dci - 1) with
    | none => (.kTransferRingNotSet, d)
    | some tr =>
      let setup := tr.push (setupStageTRB setupData SetupStageTRB.kNoDataStage)
      let status := setup.2.push (statusStageTRB 1 1)
      (.kSuccess, { d with
        transferRings := Function.update d.transferRings (ep.dci - 1) (some status.2)
        setupStageMap := d.setupStageMap.put status.1 setup.1 })

/-- Success or a short packet. -/
def succeeded (trb : TRB) : Prop := trb.completionCode = 1 ∨ trb.completionCode = 13

instance (trb : TRB) : Decidable (succeeded trb) := inferInstanceAs (Decidable (_ ∨ _))

def onTransferEventReceived (d : Device) (trb : TRB) : Received × Device :=
  if ¬ succeeded trb then (.error .kTransferFailed, d)
  else
    let issuer := d.trbAt trb.endpointID trb.eventPointer
    let len : Int := issuer.transferLength.toNat - trb.eventTransferLength.toNat
    if issuer.trbType = NormalTRB.Type then
      (.interruptCompleted trb.endpointID issuer.dataBufferPointer len, d)
    else
      match d.setupStageMap.get trb.eventPointer with
      | none => (.error .kNoCorrespondingSetupStage, d)
      | some setup =>
        let setupData := (d.trbAt trb.endpointID setup).setupData
        let d := { d with setupStageMap := d.setupStageMap.delete trb.eventPointer }
        if issuer.trbType = DataStageTRB.Type then
          (.controlCompleted trb.endpointID setupData issuer.dataBufferPointer len, d)
        else if issuer.trbType = StatusStageTRB.Type then
          (.controlCompleted trb.endpointID setupData 0 0, d)
        else (.error .kNotImplemented, d)

end Device

/-! ## What the fields hold -/

theorem setupStageTRB_setupData (setupData : SetupData) (transferType : BitVec 2) :
    (setupStageTRB setupData transferType).setupData = setupData := by
  obtain ⟨requestType, request, value, index, length⟩ := setupData
  have hrequestType : (value ++ request ++ requestType).extractLsb' 0 8 = requestType :=
    BitVec.extractLsb'_append_eq_right
  have hrequest : (value ++ request ++ requestType).extractLsb' 8 8 = request := by
    rw [BitVec.extractLsb'_append_eq_of_le le_rfl]
    exact BitVec.extractLsb'_append_eq_right
  have hvalue : (value ++ request ++ requestType).extractLsb' 16 16 = value := by
    rw [BitVec.extractLsb'_append_eq_of_le (by decide)]
    exact BitVec.extractLsb'_append_eq_left
  have hindex : (length ++ index).extractLsb' 0 16 = index := BitVec.extractLsb'_append_eq_right
  have hlength : (length ++ index).extractLsb' 16 16 = length := BitVec.extractLsb'_append_eq_left
  show SetupData.mk _ _ _ _ _ = _
  exact (SetupData.mk.injEq ..).mpr ⟨hrequestType, hrequest, hvalue, hindex, hlength⟩

theorem dataStageTRB_trbType (buf : BitVec 64) (len : Int) :
    (dataStageTRB buf len).trbType = DataStageTRB.Type := by
  show (0#15 ++ 1#1 ++ DataStageTRB.Type ++ 0#3 ++ 0#1 ++ 1#1 ++ 0#5 : BitVec 32).extractLsb' 10 6 = _
  decide

theorem statusStageTRB_trbType (direction interruptOnCompletion : BitVec 1) :
    (statusStageTRB direction interruptOnCompletion).trbType = StatusStageTRB.Type := by
  show (0#15 ++ direction ++ StatusStageTRB.Type ++ 0#4 ++ interruptOnCompletion ++ 0#5 : BitVec 32).extractLsb'
    10 6 = _
  revert direction interruptOnCompletion
  decide

/-- The setup data stands in words that `Push` stores as they are. -/
theorem TRB.payload_setupData (trb : TRB) : trb.payload.setupData = trb.setupData := by
  simp [TRB.setupData, TRB.payload]

end MikanSaos
