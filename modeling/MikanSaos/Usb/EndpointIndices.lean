import MikanSaos.Usb.DescriptorReads
import Mathlib.Algebra.Order.Ring.Int

/-!
# EndpointIndices — what a descriptor is used as an index for

The endpoints of an interface come from the device: how many there are, their numbers and their directions.  The
device has room for 16 of them, and for the 31 contexts that the controller knows.
-/

namespace MikanSaos

open ConfigurationDescriptorReader

variable {buf : Nat → UInt8} {len : Int} {driver : ClassDriver} {d : InitDevice} {p desc ifDesc ifIndex fuel : Nat}
  {behind endpoints : List Nat}

/-! ## The records as a list -/

/-- The records behind the one at `p`, by their lengths. -/
inductive RecordsBehind (buf : Nat → UInt8) (len : Int) : Nat → List Nat → Prop
  | last {p : Nat} (h : next buf len p = none) : RecordsBehind buf len p []
  | link {p desc : Nat} {behind : List Nat} (h : next buf len p = some desc)
      (hbehind : RecordsBehind buf len desc behind) : RecordsBehind buf len p (desc :: behind)

/-- A record that the lengths lead to. -/
inductive IsRecord (buf : Nat → UInt8) (len : Int) : Nat → Prop
  | first : IsRecord buf len 0
  | behind {p desc : Nat} (hp : IsRecord buf len p) (h : next buf len p = some desc) : IsRecord buf len desc

/-- Each record has a length and fits the buffer. -/
def RecordsFit (buf : Nat → UInt8) (len : Int) : Prop :=
  ∀ p, IsRecord buf len p → buf p ≠ 0 ∧ p + (buf p).toNat ≤ len

def isEndpoint (buf : Nat → UInt8) (desc : Nat) : Bool := buf (desc + 1) = EndpointDescriptor.kType

/-- The first interface with a driver, and the endpoints that are read for it: those behind it, as many as it says
that it has. -/
def driverEndpoints (buf : Nat → UInt8) : List Nat → Option (Nat × ClassDriver × List Nat)
  | [] => none
  | desc :: behind =>
    if buf (desc + 1) = InterfaceDescriptor.kType then
      match findClassDriver buf desc with
      | some driver => some (desc, driver, (behind.filter (isEndpoint buf)).take (buf (desc + 4)).toNat)
      | none => driverEndpoints buf behind
    else driverEndpoints buf behind

/-- There are at most 16 of them, and if there are as many as the interface says, none is the endpoint 0 in the
direction out. -/
def EndpointsInRange (buf : Nat → UInt8) (len : Int) : Prop :=
  buf 1 = ConfigurationDescriptor.kType → ∀ behind ifDesc driver endpoints, RecordsBehind buf len 0 behind →
    driverEndpoints buf behind = some (ifDesc, driver, endpoints) →
    endpoints.length ≤ 16 ∧ (endpoints.length = (buf (ifDesc + 4)).toNat →
      ∀ desc ∈ endpoints, (endpointConfig buf desc).epId.dci ≠ 0)

/-- The accesses of the three phases.  The later ones come only after the configuration has been set. -/
structure IndicesInRange (result : Phase3) : Prop where
  epConfigs : result.device.epConfigs.length ≤ 16
  classDrivers : ∀ epConf ∈ result.device.epConfigs, 0 ≤ epConf.epId.number ∧ epConf.epId.number < 16
  drivers : result.configurationValue ≠ none → ∀ driver ∈ result.device.initializePhase4, driver ≠ none
  contexts : result.configurationValue ≠ none → ∀ i ∈ result.device.configureEndPoints, 0 ≤ i ∧ i < 31

theorem RecordsBehind.unique {behind' : List Nat} (h : RecordsBehind buf len p behind)
    (h' : RecordsBehind buf len p behind') : behind = behind' := by
  induction h generalizing behind' with
  | last h =>
    cases h' with
    | last => rfl
    | link h' => cases h.symm.trans h'
  | link h _ ih =>
    cases h' with
    | last h' => cases h.symm.trans h'
    | link h' hbehind' =>
      cases h.symm.trans h'
      rw [ih hbehind']

/-- Records that have a length come to an end. -/
theorem RecordsFit.ends (hfit : RecordsFit buf len) (hp : IsRecord buf len p) :
    ∃ behind, RecordsBehind buf len p behind ∧ ((behind.length + p : Nat) : Int) ≤ len := by
  induction hsize : (len - p).toNat using Nat.strong_induction_on generalizing p with
  | _ size ih =>
    obtain ⟨hlength, hend⟩ := hfit p hp
    cases hnext : next buf len p with
    | none =>
      refine ⟨[], .last hnext, ?_⟩
      simp only [List.length_nil]
      omega
    | some desc =>
      obtain ⟨hdesc, hlt⟩ := next_eq_some.mp hnext
      have hpos : 0 < (buf p).toNat := by
        apply Nat.pos_of_ne_zero
        exact fun h => hlength (UInt8.toNat_inj.mp h)
      obtain ⟨behind, hbehind, hle⟩ := ih _ (by omega) (.behind hp hnext) rfl
      refine ⟨desc :: behind, .link hnext hbehind, ?_⟩
      rw [List.length_cons]
      omega

/-! ## The loops over a list of records -/

/-- What the loop over the endpoints leaves in the device. -/
def InitDevice.addEndpoints (d : InitDevice) (buf : Nat → UInt8) (driver : ClassDriver) (endpoints : List Nat) :
    InitDevice :=
  endpoints.foldl (fun d desc => d.addEndpoint driver (endpointConfig buf desc)) d

theorem epConfigs_addEndpoints : (d.addEndpoints buf driver endpoints).epConfigs =
    d.epConfigs ++ endpoints.map (endpointConfig buf) := by
  unfold InitDevice.addEndpoints
  induction endpoints generalizing d with
  | nil => simp
  | cons desc rest ih =>
    rw [List.foldl_cons, ih, List.map_cons]
    exact List.append_assoc ..

/-- Every endpoint that has been added finds the driver under its number. -/
theorem classDrivers_addEndpoints (h : ∀ epConf ∈ d.epConfigs, d.classDrivers epConf.epId.number = some driver) :
    ∀ epConf ∈ (d.addEndpoints buf driver endpoints).epConfigs,
      (d.addEndpoints buf driver endpoints).classDrivers epConf.epId.number = some driver := by
  unfold InitDevice.addEndpoints
  induction endpoints generalizing d with
  | nil => exact h
  | cons desc rest ih =>
    apply ih
    intro epConf hmem
    by_cases hnumber : epConf.epId.number = (endpointConfig buf desc).epId.number
    · rw [hnumber]
      exact Function.update_self ..
    · -- it is not the one that has been added last
      have hearlier : epConf ∈ d.epConfigs := by
        rcases List.mem_append.mp hmem with hmem | hmem
        · exact hmem
        · rw [List.mem_singleton.mp hmem] at hnumber
          exact absurd rfl hnumber
      exact (Function.update_of_ne hnumber ..).trans (h epConf hearlier)

theorem scanEndpoints_eq (hbehind : RecordsBehind buf len p behind) (hfuel : behind.length < fuel) :
    ∃ reads, scanEndpoints buf len driver ifDesc fuel p d =
      some (decide ((buf (ifDesc + 4)).toNat ≤ d.epConfigs.length + (behind.filter (isEndpoint buf)).length),
        d.addEndpoints buf driver
          ((behind.filter (isEndpoint buf)).take ((buf (ifDesc + 4)).toNat - d.epConfigs.length)), reads) := by
  have hcomplete : ∀ (d : InitDevice) (p : Nat) (behind : List Nat) (fuel : Nat),
      ¬ d.epConfigs.length < (buf (ifDesc + 4)).toNat →
      scanEndpoints buf len driver ifDesc (fuel + 1) p d =
        some (decide ((buf (ifDesc + 4)).toNat ≤ d.epConfigs.length + (behind.filter (isEndpoint buf)).length),
          d.addEndpoints buf driver
            ((behind.filter (isEndpoint buf)).take ((buf (ifDesc + 4)).toNat - d.epConfigs.length)),
          [ifDesc + 4]) := by
    intro d p behind fuel hmore
    have hle : (buf (ifDesc + 4)).toNat ≤ d.epConfigs.length + (behind.filter (isEndpoint buf)).length := by omega
    rw [scanEndpoints_complete hmore, decide_eq_true hle, Nat.sub_eq_zero_of_le (Nat.not_lt.mp hmore), List.take_zero]
    rfl
  induction hbehind generalizing d fuel with
  | @last p h =>
    obtain ⟨fuel, rfl⟩ := Nat.exists_eq_add_one_of_ne_zero (Nat.ne_of_gt hfuel)
    by_cases hmore : d.epConfigs.length < (buf (ifDesc + 4)).toNat
    · refine ⟨[ifDesc + 4, p], ?_⟩
      rw [scanEndpoints_last hmore h]
      simp [InitDevice.addEndpoints, hmore]
    · exact ⟨_, hcomplete d p [] fuel hmore⟩
  | @link p desc behind h hbehind ih =>
    rw [List.length_cons] at hfuel
    obtain ⟨fuel, rfl⟩ := Nat.exists_eq_add_one_of_ne_zero (Nat.ne_of_gt (Nat.zero_lt_of_lt hfuel))
    by_cases hmore : d.epConfigs.length < (buf (ifDesc + 4)).toNat
    · obtain ⟨reads, hrest⟩ := ih (d := d.addRecord buf driver desc) (Nat.lt_of_succ_lt_succ hfuel)
      refine ⟨[ifDesc + 4, p] ++ recordReads buf desc ++ reads, ?_⟩
      rw [scanEndpoints_record hmore h, hrest]
      unfold InitDevice.addRecord
      by_cases htype : buf (desc + 1) = EndpointDescriptor.kType
      · have hkept : isEndpoint buf desc = true := decide_eq_true htype
        have hadd : (d.addEndpoint driver (endpointConfig buf desc)).epConfigs.length = d.epConfigs.length + 1 :=
          List.length_append
        have hroom : (buf (ifDesc + 4)).toNat - d.epConfigs.length =
            (buf (ifDesc + 4)).toNat - (d.epConfigs.length + 1) + 1 := by omega
        rw [if_pos htype, hadd, List.filter_cons_of_pos hkept, hroom, List.take_succ_cons, List.length_cons]
        have hsum : d.epConfigs.length + 1 + (behind.filter (isEndpoint buf)).length =
            d.epConfigs.length + ((behind.filter (isEndpoint buf)).length + 1) := by omega
        rw [hsum]
        rfl
      · have hskipped : ¬ isEndpoint buf desc = true := by
          unfold isEndpoint
          simpa using htype
        rw [if_neg htype, List.filter_cons_of_neg hskipped]
        rfl
    · exact ⟨_, hcomplete d p (desc :: behind) fuel hmore⟩

/-- The driver and the device after the loop over the interfaces, by the first interface with a driver. -/
def interfacesResult (buf : Nat → UInt8) (behind : List Nat) (d : InitDevice) : Option ClassDriver × InitDevice :=
  match driverEndpoints buf behind with
  | none => (none, d)
  | some (ifDesc, driver, endpoints) =>
    (if endpoints.length = (buf (ifDesc + 4)).toNat then some driver else none,
      InitDevice.addEndpoints { d with epConfigs := [] } buf driver endpoints)

theorem scanInterfaces_eq (hbehind : RecordsBehind buf len p behind) (hfuel : behind.length + 1 < fuel) :
    ∃ reads, scanInterfaces buf len fuel p ifIndex d =
      some ((interfacesResult buf behind d).1, (interfacesResult buf behind d).2, reads) := by
  induction hbehind generalizing ifIndex fuel with
  | @last p h =>
    obtain ⟨fuel, rfl⟩ : ∃ rest, fuel = rest + 2 := Nat.exists_eq_add_of_le' hfuel
    exact ⟨[p], scanInterfaces_last (nextInterface_last h)⟩
  | @link p desc behind h hbehind ih =>
    rw [List.length_cons] at hfuel
    obtain ⟨fuel, rfl⟩ : ∃ rest, fuel = rest + 2 := Nat.exists_eq_add_of_le' (by omega)
    by_cases htype : buf (desc + 1) = InterfaceDescriptor.kType
    · cases hdriver : findClassDriver buf desc with
      | none =>
        have hsame : interfacesResult buf (desc :: behind) d = interfacesResult buf behind d := by
          unfold interfacesResult
          rw [driverEndpoints, if_pos htype, hdriver]
        obtain ⟨reads, hrest⟩ : ∃ reads, scanInterfaces buf len (fuel + 1) desc (ifIndex + 1) d = some (_, _, reads) :=
          ih (by omega)
        refine ⟨[p, desc + 1] ++ interfaceReads buf ifIndex desc ++ reads, ?_⟩
        rw [scanInterfaces_skip (nextInterface_found h htype) hdriver, hrest, hsame]
        rfl
      | some driver =>
        have hfirst : driverEndpoints buf (desc :: behind) =
            some (desc, driver, (behind.filter (isEndpoint buf)).take (buf (desc + 4)).toNat) := by
          rw [driverEndpoints, if_pos htype, hdriver]
        obtain ⟨reads, hrest⟩ : ∃ reads, scanEndpoints buf len driver desc (fuel + 1) desc { d with epConfigs := [] } =
            some (_, _, reads) := scanEndpoints_eq hbehind (by omega)
        refine ⟨[p, desc + 1] ++ interfaceReads buf ifIndex desc ++ reads, ?_⟩
        rw [scanInterfaces_driver (nextInterface_found h htype) hdriver, hrest]
        unfold interfacesResult
        rw [hfirst]
        simp [List.length_take]
    · have hsame : interfacesResult buf (desc :: behind) d = interfacesResult buf behind d := by
        unfold interfacesResult
        rw [driverEndpoints, if_neg htype]
      obtain ⟨reads, hrest⟩ : ∃ reads, scanInterfaces buf len (fuel + 1) desc ifIndex d = some (_, _, reads) :=
        ih (by omega)
      rw [hsame]
      exact ⟨_, scanInterfaces_other h htype hrest⟩

/-! ## The indices -/

theorem endpointsInRange_iff (hconf : buf 1 = ConfigurationDescriptor.kType)
    (hbehind : RecordsBehind buf len 0 behind) :
    EndpointsInRange buf len ↔ ∀ ifDesc driver endpoints,
      driverEndpoints buf behind = some (ifDesc, driver, endpoints) →
      endpoints.length ≤ 16 ∧ (endpoints.length = (buf (ifDesc + 4)).toNat →
        ∀ desc ∈ endpoints, (endpointConfig buf desc).epId.dci ≠ 0) := by
  constructor
  · intro h ifDesc driver endpoints hfirst
    exact h hconf behind ifDesc driver endpoints hbehind hfirst
  · intro h _ behind' ifDesc driver endpoints hbehind' hfirst
    rw [← hbehind.unique hbehind'] at hfirst
    exact h ifDesc driver endpoints hfirst

theorem endpointConfig_dci (buf : Nat → UInt8) (desc : Nat) :
    0 ≤ (endpointConfig buf desc).epId.dci ∧ (endpointConfig buf desc).epId.dci < 32 := by
  have hbyte := (buf (desc + 2)).toNat_lt
  unfold endpointConfig
  dsimp only
  omega

theorem endpointConfig_number (buf : Nat → UInt8) (desc : Nat) :
    0 ≤ (endpointConfig buf desc).epId.number ∧ (endpointConfig buf desc).epId.number < 16 := by
  have hdci := endpointConfig_dci buf desc
  rw [EndpointID.number, Int.shiftRight_eq_div_pow]
  omega

/-- The accesses for a list of endpoints, of which all have been found or not. -/
theorem indicesInRange_iff {result : Phase3} {value : Option UInt8}
    (hdevice : result.device = InitDevice.addEndpoints .fresh buf driver endpoints)
    (hvalue : result.configurationValue = value) :
    IndicesInRange result ↔ endpoints.length ≤ 16 ∧ (value ≠ none →
      ∀ desc ∈ endpoints, (endpointConfig buf desc).epId.dci ≠ 0) := by
  have hconfigs : result.device.epConfigs = endpoints.map (endpointConfig buf) := by
    rw [hdevice, epConfigs_addEndpoints]
    rfl
  have hindices : result.device.configureEndPoints =
      endpoints.map fun desc => (endpointConfig buf desc).epId.dci - 1 := by
    unfold InitDevice.configureEndPoints
    rw [hconfigs, List.map_map]
    rfl
  constructor
  · intro h
    have hlength := h.epConfigs
    have hcontexts := h.contexts
    rw [hconfigs, List.length_map] at hlength
    rw [hindices, hvalue, List.forall_mem_map] at hcontexts
    refine ⟨hlength, fun hset desc hdesc hzero => ?_⟩
    have hindex := hcontexts hset desc hdesc
    omega
  · intro h
    refine ⟨?_, ?_, ?_, ?_⟩
    · rw [hconfigs, List.length_map]
      exact h.1
    · rw [hconfigs, List.forall_mem_map]
      exact fun desc _ => endpointConfig_number buf desc
    · -- the driver of the interface is the driver of all its endpoints
      intro _
      unfold InitDevice.initializePhase4
      rw [hdevice, List.forall_mem_map]
      intro epConf hmem
      have hnone : ∀ epConf ∈ InitDevice.fresh.epConfigs,
          InitDevice.fresh.classDrivers epConf.epId.number = some driver := by simp [InitDevice.fresh]
      rw [classDrivers_addEndpoints hnone epConf hmem]
      exact Option.some_ne_none driver
    · intro hset
      rw [hvalue] at hset
      rw [hindices, List.forall_mem_map]
      intro desc hdesc
      have hdci := endpointConfig_dci buf desc
      have hne := h.2 hset desc hdesc
      omega

theorem indicesInRange_fresh {result : Phase3} (hdevice : result.device = .fresh)
    (hvalue : result.configurationValue = none) : IndicesInRange result := by
  refine ⟨?_, ?_, fun hset => absurd hvalue hset, fun hset => absurd hvalue hset⟩
  · rw [hdevice]
    exact Nat.zero_le 16
  · rw [hdevice]
    simp [InitDevice.fresh]

/-- **Which descriptors keep the indices in range.**  For records that have a length and fit a buffer of 256 bytes:
the phase ends, and the accesses of this phase and the later ones are in range exactly when at most 16 endpoints are
read and, if the configuration is set, none of them is the endpoint 0 in the direction out. -/
theorem initializePhase3_indices_iff (hlen : len ≤ 256) (hfit : RecordsFit buf len) (extra : Nat) :
    ∃ result, initializePhase3 buf len (258 + extra) .fresh = some result ∧
      (IndicesInRange result ↔ EndpointsInRange buf len) := by
  by_cases hconf : buf 1 = ConfigurationDescriptor.kType
  · obtain ⟨behind, hbehind, hlength⟩ := hfit.ends .first
    obtain ⟨reads, hscan⟩ : ∃ reads, scanInterfaces buf len (258 + extra) 0 0 .fresh = some (_, _, reads) :=
      scanInterfaces_eq hbehind (by omega)
    have hrun : initializePhase3 buf len (258 + extra) .fresh = _ := initializePhase3_eq hconf
    rw [hscan] at hrun
    refine ⟨_, hrun, ?_⟩
    rw [endpointsInRange_iff hconf hbehind]
    cases hfirst : driverEndpoints buf behind with
    | none =>
      -- no driver, and the configuration is not set
      have hnone : interfacesResult buf behind .fresh = (none, .fresh) := by
        unfold interfacesResult
        rw [hfirst]
      rw [hnone]
      exact iff_of_true (indicesInRange_fresh rfl rfl) fun _ _ _ h => nomatch h
    | some first =>
      obtain ⟨ifDesc, driver, endpoints⟩ := first
      have hresult : interfacesResult buf behind .fresh =
          (if endpoints.length = (buf (ifDesc + 4)).toNat then some driver else none,
            InitDevice.addEndpoints .fresh buf driver endpoints) := by
        unfold interfacesResult
        rw [hfirst]
        rfl
      rw [hresult, indicesInRange_iff rfl rfl]
      simp
  · have hrun : initializePhase3 buf len (258 + extra) .fresh = some ⟨.kInvalidDescriptor, none, .fresh, [1]⟩ :=
      if_neg hconf
    exact ⟨_, hrun, iff_of_true (indicesInRange_fresh rfl rfl) fun h => absurd h hconf⟩

/-- A keyboard with one endpoint: the configuration, the interface and the endpoint. -/
def keyboard (endpointAddress : UInt8) (i : Nat) : UInt8 :=
  [9, 2, 25, 0, 1, 1, 0, 160, 50, 9, 4, 0, 0, 1, 3, 1, 1, 0, 7, 5, endpointAddress, 3, 8, 0, 10].getD i 0

theorem keyboard_recordsFit (endpointAddress : UInt8) : RecordsFit (keyboard endpointAddress) 25 := by
  have hrecords : ∀ p, IsRecord (keyboard endpointAddress) 25 p → p = 0 ∨ p = 9 ∨ p = 18 := by
    intro p hp
    induction hp with
    | first => exact .inl rfl
    | behind _ h ih =>
      obtain ⟨rfl, hlt⟩ := next_eq_some.mp h
      rcases ih with rfl | rfl | rfl
      · exact .inr (.inl rfl)
      · exact .inr (.inr rfl)
      · -- the endpoint is the last record
        revert hlt
        simp [keyboard]
  intro p hp
  rcases hrecords p hp with rfl | rfl | rfl <;> simp [keyboard]

theorem initializePhase3_keyboard : ∃ result, initializePhase3 (keyboard 0x81) 25 258 .fresh = some result ∧
    (IndicesInRange result ↔ EndpointsInRange (keyboard 0x81) 25) :=
  initializePhase3_indices_iff (by decide) (keyboard_recordsFit 0x81) 0

/-- The endpoint 0 in the direction out has the context index 0, and is used for the index -1. -/
theorem initializePhase3_endpointZero : RecordsFit (keyboard 0) 25 ∧
    ¬ ∃ result, initializePhase3 (keyboard 0) 25 258 .fresh = some result ∧ IndicesInRange result := by
  refine ⟨keyboard_recordsFit 0, fun ⟨result, hrun, h⟩ => ?_⟩
  have hconf : (initializePhase3 (keyboard 0) 25 258 .fresh).map
      (fun result => (result.configurationValue, result.device.configureEndPoints)) = some (some 1, [-1]) := by decide
  rw [hrun] at hconf
  simp only [Option.map_some, Option.some.injEq, Prod.mk.injEq] at hconf
  have hcontexts := h.contexts (by simp [hconf.1]) (-1) (by simp [hconf.2])
  omega

end MikanSaos
