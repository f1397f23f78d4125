import MikanSaos.Usb.Descriptors
import Mathlib.Tactic.Common

/-!
# DescriptorReads — which bytes of a descriptor are read

The reader compares where a record begins with the end of the data, and nothing else.  So it stays in the data
exactly when every record that it comes to has the bytes that are looked at, and it ends exactly when no record
leads back to itself.
-/

namespace MikanSaos

open ConfigurationDescriptorReader

variable {buf : Nat → UInt8} {len : Int} {driver : ClassDriver} {d : InitDevice}
  {p desc ifDesc ifIndex found fuel : Nat} {reads : List Nat}

/-! ## Records that can be read -/

/-- The bytes of a record that the loop over the endpoints looks at. -/
def recordExtent (buf : Nat → UInt8) (desc : Nat) : Nat :=
  if buf (desc + 1) = EndpointDescriptor.kType then 7
  else if buf (desc + 1) = HIDDescriptor.kType then 6 + 3 * (buf (desc + 5)).toNat
  else 2

/-- From the record at `p` on, with `found` endpoints so far: every record up to the last endpoint of the interface
has its bytes in the data, and none leads to itself unless it is an endpoint, which is counted again. -/
inductive EndpointsReadable (buf : Nat → UInt8) (len : Int) (ifDesc : Nat) : Nat → Nat → Prop
  | complete {p found : Nat} (h : (buf (ifDesc + 4)).toNat ≤ found) : EndpointsReadable buf len ifDesc p found
  | last {p found : Nat} (hmore : found < (buf (ifDesc + 4)).toNat) (h : next buf len p = none) :
      EndpointsReadable buf len ifDesc p found
  | endpoint {p found desc : Nat} (hmore : found < (buf (ifDesc + 4)).toNat) (h : next buf len p = some desc)
      (htype : buf (desc + 1) = EndpointDescriptor.kType) (hextent : desc + recordExtent buf desc ≤ len)
      (hrest : EndpointsReadable buf len ifDesc desc (found + 1)) : EndpointsReadable buf len ifDesc p found
  | other {p found desc : Nat} (hmore : found < (buf (ifDesc + 4)).toNat) (h : next buf len p = some desc)
      (hlength : buf p ≠ 0) (htype : buf (desc + 1) ≠ EndpointDescriptor.kType)
      (hextent : desc + recordExtent buf desc ≤ len)
      (hrest : EndpointsReadable buf len ifDesc desc found) : EndpointsReadable buf len ifDesc p found

/-- From the record at `p` on, up to the first interface with a driver: the records have a length, and their bytes
are in the data. -/
inductive InterfacesReadable (buf : Nat → UInt8) (len : Int) : Nat → Nat → Prop
  | last {p ifIndex : Nat} (h : next buf len p = none) : InterfacesReadable buf len p ifIndex
  | other {p ifIndex desc : Nat} (h : next buf len p = some desc) (hlength : buf p ≠ 0)
      (htype : buf (desc + 1) ≠ InterfaceDescriptor.kType) (hextent : desc + 2 ≤ len)
      (hrest : InterfacesReadable buf len desc ifIndex) : InterfacesReadable buf len p ifIndex
  | interface {p ifIndex desc : Nat} (h : next buf len p = some desc) (hlength : buf p ≠ 0)
      (htype : buf (desc + 1) = InterfaceDescriptor.kType) (hdriver : findClassDriver buf desc = none)
      (hextent : desc + (if ifIndex < 3 then 9 else 8) ≤ len)
      (hrest : InterfacesReadable buf len desc (ifIndex + 1)) : InterfacesReadable buf len p ifIndex
  | driver {p ifIndex desc : Nat} {driver : ClassDriver} (h : next buf len p = some desc)
      (htype : buf (desc + 1) = InterfaceDescriptor.kType) (hdriver : findClassDriver buf desc = some driver)
      (hextent : desc + (if ifIndex < 3 then 9 else 8) ≤ len)
      (hrest : EndpointsReadable buf len desc desc 0) : InterfacesReadable buf len p ifIndex

/-- The type of the first record is in the data, and so are the records if that is a configuration. -/
def Readable (buf : Nat → UInt8) (len : Int) : Prop :=
  2 ≤ len ∧ (buf 1 = ConfigurationDescriptor.kType → InterfacesReadable buf len 0 0)

/-! ## What is read of a record -/

theorem range'_below {start n : Nat} (hn : 0 < n) :
    (∀ i ∈ List.range' start n, (i : Int) < len) ↔ ((start + n : Nat) : Int) ≤ len := by
  constructor
  · intro h
    have hlast := h (start + n - 1) (by rw [List.mem_range'_1]; omega)
    omega
  · intro h i hi
    have hrange := List.mem_range'_1.mp hi
    omega

theorem recordReads_below : (∀ i ∈ recordReads buf desc, (i : Int) < len) ↔ desc + recordExtent buf desc ≤ len := by
  unfold recordReads recordExtent
  split
  · rw [range'_below (by decide)]
    push_cast
    omega
  · split
    · -- the last class descriptor is the one that matters, and without one the number of them
      constructor
      · intro h
        have hnum := h (desc + 5) (by simp)
        by_cases hnone : (buf (desc + 5)).toNat = 0
        · push_cast [hnone]
          omega
        · have hlast := h (desc + 6 + 3 * ((buf (desc + 5)).toNat - 1) + 2) (by
            simp only [List.mem_append, List.mem_flatMap, List.mem_range, List.mem_range'_1]
            exact .inr ⟨(buf (desc + 5)).toNat - 1, by omega, by omega⟩)
          omega
      · intro h i hi
        simp only [List.mem_append, List.mem_cons, List.not_mem_nil, or_false, List.mem_flatMap, List.mem_range,
          List.mem_range'_1] at hi
        push_cast at h
        rcases hi with hi | ⟨k, hk, hi⟩ <;> omega
    · simp only [List.mem_singleton, forall_eq]
      push_cast
      omega

theorem interfaceReads_below : (∀ i ∈ interfaceReads buf ifIndex ifDesc, (i : Int) < len) ↔
    ifDesc + (if ifIndex < 3 then 9 else 8) ≤ len := by
  unfold interfaceReads
  constructor
  · intro h
    split
    · rename_i hcopied
      have hlast := h (ifDesc + 8) (by simp [hcopied])
      omega
    · have hprotocol := h (ifDesc + 7) (by simp)
      omega
  · intro h i hi
    rcases List.mem_append.mp hi with hi | hi
    · rcases List.mem_append.mp hi with hi | hi
      · simp only [List.mem_cons, List.not_mem_nil, or_false] at hi
        split at h <;> omega
      · split at hi
        · rename_i hcopied
          have hrange := List.mem_range'_1.mp hi
          rw [if_pos hcopied] at h
          omega
        · cases hi
    · split at hi
      · rw [List.mem_singleton] at hi
        split at h <;> omega
      · cases hi

theorem pair_below {i j : Nat} (hi : (i : Int) < len) (hj : (j : Int) < len) : ∀ k ∈ [i, j], (k : Int) < len := by
  simp only [List.mem_cons, List.not_mem_nil, or_false, forall_eq_or_imp, forall_eq]
  exact ⟨hi, hj⟩

theorem next_eq_some : next buf len p = some desc ↔ p + (buf p).toNat = desc ∧ (desc : Int) < len := by
  unfold next
  dsimp only
  split
  · rename_i hlt
    rw [Option.some_inj]
    constructor
    · intro h
      exact ⟨h, h ▸ hlt⟩
    · exact fun h => h.1
  · rename_i hge
    simp only [reduceCtorEq, false_iff, not_and]
    intro h
    exact h ▸ hge

/-! ## One record of a loop -/

theorem nextInterface_last (h : next buf len p = none) :
    nextInterface buf len (fuel + 1) p = some (none, [p]) := by
  rw [nextInterface, h]

theorem nextInterface_found (h : next buf len p = some desc) (htype : buf (desc + 1) = InterfaceDescriptor.kType) :
    nextInterface buf len (fuel + 1) p = some (some desc, [p, desc + 1]) := by
  rw [nextInterface, h]
  exact if_pos htype

theorem nextInterface_other (h : next buf len p = some desc) (htype : buf (desc + 1) ≠ InterfaceDescriptor.kType) :
    nextInterface buf len (fuel + 1) p =
      (nextInterface buf len fuel desc).map fun (found, reads) => (found, [p, desc + 1] ++ reads) := by
  rw [nextInterface, h]
  exact if_neg htype

theorem scanEndpoints_complete (h : ¬ d.epConfigs.length < (buf (ifDesc + 4)).toNat) :
    scanEndpoints buf len driver ifDesc (fuel + 1) p d = some (true, d, [ifDesc + 4]) := by
  rw [scanEndpoints, if_neg h]

theorem scanEndpoints_last (hmore : d.epConfigs.length < (buf (ifDesc + 4)).toNat) (h : next buf len p = none) :
    scanEndpoints buf len driver ifDesc (fuel + 1) p d = some (false, d, [ifDesc + 4, p]) := by
  rw [scanEndpoints, if_pos hmore, h]

/-- The device after a record of the loop over the endpoints. -/
def InitDevice.addRecord (d : InitDevice) (buf : Nat → UInt8) (driver : ClassDriver) (desc : Nat) : InitDevice :=
  if buf (desc + 1) = EndpointDescriptor.kType then d.addEndpoint driver (endpointConfig buf desc) else d

theorem scanEndpoints_record (hmore : d.epConfigs.length < (buf (ifDesc + 4)).toNat) (h : next buf len p = some desc) :
    scanEndpoints buf len driver ifDesc (fuel + 1) p d =
      (scanEndpoints buf len driver ifDesc fuel desc (d.addRecord buf driver desc)).map fun (found, d, reads) =>
        (found, d, [ifDesc + 4, p] ++ recordReads buf desc ++ reads) := by
  rw [scanEndpoints, if_pos hmore, h]
  rfl

theorem scanInterfaces_last (h : nextInterface buf len fuel p = some (none, reads)) :
    scanInterfaces buf len (fuel + 1) p ifIndex d = some (none, d, reads) := by
  rw [scanInterfaces, h]
  rfl

theorem scanInterfaces_skip (h : nextInterface buf len fuel p = some (some ifDesc, reads))
    (hdriver : findClassDriver buf ifDesc = none) :
    scanInterfaces buf len (fuel + 1) p ifIndex d =
      (scanInterfaces buf len fuel ifDesc (ifIndex + 1) d).map fun (driver, d, later) =>
        (driver, d, reads ++ interfaceReads buf ifIndex ifDesc ++ later) := by
  rw [scanInterfaces, h, Option.bind_some]
  simp only [hdriver]

theorem scanInterfaces_driver (h : nextInterface buf len fuel p = some (some ifDesc, reads))
    (hdriver : findClassDriver buf ifDesc = some driver) :
    scanInterfaces buf len (fuel + 1) p ifIndex d =
      (scanEndpoints buf len driver ifDesc fuel ifDesc { d with epConfigs := [] }).map fun (found, d, later) =>
        (if found then some driver else none, d, reads ++ interfaceReads buf ifIndex ifDesc ++ later) := by
  rw [scanInterfaces, h, Option.bind_some]
  simp only [hdriver]

/-- The loop over the interfaces goes on with what the reader finds. -/
theorem nextInterface_of_scan {result : Option ClassDriver × InitDevice × List Nat}
    (h : scanInterfaces buf len (fuel + 1) p ifIndex d = some result) :
    ∃ found, nextInterface buf len fuel p = some found := by
  rw [scanInterfaces] at h
  obtain ⟨found, hfound, -⟩ := Option.bind_eq_some_iff.mp h
  exact ⟨found, hfound⟩

/-! ## More fuel -/

theorem nextInterface_mono {result : Option Nat × List Nat} (h : nextInterface buf len fuel p = some result) :
    nextInterface buf len (fuel + 1) p = some result := by
  induction fuel generalizing p result with
  | zero => cases h
  | succ fuel ih =>
    cases hnext : next buf len p with
    | none =>
      rw [nextInterface_last hnext] at h ⊢
      exact h
    | some desc =>
      by_cases htype : buf (desc + 1) = InterfaceDescriptor.kType
      · rw [nextInterface_found hnext htype] at h ⊢
        exact h
      · rw [nextInterface_other hnext htype] at h ⊢
        obtain ⟨rest, hrest, heq⟩ := Option.map_eq_some_iff.mp h
        rw [ih hrest]
        exact congrArg some heq

theorem scanEndpoints_mono {result : Bool × InitDevice × List Nat}
    (h : scanEndpoints buf len driver ifDesc fuel p d = some result) :
    scanEndpoints buf len driver ifDesc (fuel + 1) p d = some result := by
  induction fuel generalizing p d result with
  | zero => cases h
  | succ fuel ih =>
    by_cases hmore : d.epConfigs.length < (buf (ifDesc + 4)).toNat
    · cases hnext : next buf len p with
      | none =>
        rw [scanEndpoints_last hmore hnext] at h ⊢
        exact h
      | some desc =>
        rw [scanEndpoints_record hmore hnext] at h ⊢
        obtain ⟨rest, hrest, heq⟩ := Option.map_eq_some_iff.mp h
        rw [ih hrest]
        exact congrArg some heq
    · rw [scanEndpoints_complete hmore] at h ⊢
      exact h

theorem scanInterfaces_mono {result : Option ClassDriver × InitDevice × List Nat}
    (h : scanInterfaces buf len fuel p ifIndex d = some result) :
    scanInterfaces buf len (fuel + 1) p ifIndex d = some result := by
  induction fuel generalizing p ifIndex d result with
  | zero => cases h
  | succ fuel ih =>
    obtain ⟨⟨found, reads⟩, hfound⟩ := nextInterface_of_scan h
    have hmore := nextInterface_mono hfound
    cases found with
    | none =>
      rw [scanInterfaces_last hfound] at h
      rw [scanInterfaces_last hmore, h]
    | some ifDesc =>
      cases hdriver : findClassDriver buf ifDesc with
      | none =>
        rw [scanInterfaces_skip hfound hdriver] at h
        obtain ⟨rest, hrest, heq⟩ := Option.map_eq_some_iff.mp h
        rw [scanInterfaces_skip hmore hdriver, ih hrest]
        exact congrArg some heq
      | some driver =>
        rw [scanInterfaces_driver hfound hdriver] at h
        obtain ⟨rest, hrest, heq⟩ := Option.map_eq_some_iff.mp h
        rw [scanInterfaces_driver hmore hdriver, scanEndpoints_mono hrest]
        exact congrArg some heq

/-- A record that is no interface is one read more for the loop over the interfaces. -/
theorem scanInterfaces_other {result : Option ClassDriver × InitDevice × List Nat} (h : next buf len p = some desc)
    (htype : buf (desc + 1) ≠ InterfaceDescriptor.kType)
    (hrest : scanInterfaces buf len fuel desc ifIndex d = some result) :
    scanInterfaces buf len (fuel + 1) p ifIndex d =
      some (result.1, result.2.1, [p, desc + 1] ++ result.2.2) := by
  cases fuel with
  | zero => cases hrest
  | succ fuel =>
    obtain ⟨⟨found, reads⟩, hfound⟩ := nextInterface_of_scan hrest
    have hmore : nextInterface buf len (fuel + 1) p = some (found, [p, desc + 1] ++ reads) := by
      rw [nextInterface_other h htype, hfound]
      rfl
    cases found with
    | none =>
      rw [scanInterfaces_last hfound] at hrest
      rw [scanInterfaces_last hmore, ← Option.some.inj hrest]
    | some ifDesc =>
      cases hdriver : findClassDriver buf ifDesc with
      | none =>
        rw [scanInterfaces_skip hfound hdriver] at hrest
        obtain ⟨rest, hscan, rfl⟩ := Option.map_eq_some_iff.mp hrest
        rw [scanInterfaces_skip hmore hdriver, scanInterfaces_mono hscan]
        simp
      | some driver =>
        rw [scanInterfaces_driver hfound hdriver] at hrest
        obtain ⟨rest, hscan, rfl⟩ := Option.map_eq_some_iff.mp hrest
        rw [scanInterfaces_driver hmore hdriver, scanEndpoints_mono hscan]
        simp

/-! ## Readable records are read -/

theorem scanEndpoints_below (hmore : d.epConfigs.length < (buf (ifDesc + 4)).toNat) (h : next buf len p = some desc)
    (hnum : ((ifDesc + 4 : Nat) : Int) < len) (hp : (p : Int) < len) (hextent : desc + recordExtent buf desc ≤ len)
    (hrest : ∃ fuel result, scanEndpoints buf len driver ifDesc fuel desc (d.addRecord buf driver desc) = some result ∧
      ∀ i ∈ result.2.2, (i : Int) < len) :
    ∃ fuel result, scanEndpoints buf len driver ifDesc fuel p d = some result ∧ ∀ i ∈ result.2.2, (i : Int) < len := by
  obtain ⟨fuel, result, hscan, hbelow⟩ := hrest
  refine ⟨fuel + 1, (result.1, result.2.1, [ifDesc + 4, p] ++ recordReads buf desc ++ result.2.2), ?_, ?_⟩
  · rw [scanEndpoints_record hmore h, hscan]
    rfl
  · exact List.forall_mem_append.mpr ⟨List.forall_mem_append.mpr ⟨pair_below hnum hp,
      recordReads_below.mpr hextent⟩, hbelow⟩

theorem EndpointsReadable.scan {found : Nat} (h : EndpointsReadable buf len ifDesc p found)
    (hfound : d.epConfigs.length = found) (hp : (p : Int) < len) (hnum : ((ifDesc + 4 : Nat) : Int) < len) :
    ∃ fuel result, scanEndpoints buf len driver ifDesc fuel p d = some result ∧
      ∀ i ∈ result.2.2, (i : Int) < len := by
  induction h generalizing d with
  | complete h =>
    refine ⟨1, _, scanEndpoints_complete (by omega), ?_⟩
    intro i hi
    rw [List.mem_singleton.mp hi]
    exact hnum
  | last hmore h => exact ⟨1, _, scanEndpoints_last (by omega) h, pair_below hnum hp⟩
  | @endpoint p found desc hmore h htype hextent hrest ih =>
    have hadd : (d.addRecord buf driver desc).epConfigs.length = found + 1 := by
      rw [InitDevice.addRecord, if_pos htype, ← hfound]
      exact List.length_append
    exact scanEndpoints_below (by omega) h hnum hp hextent (ih hadd (next_eq_some.mp h).2)
  | @other p found desc hmore h hlength htype hextent hrest ih =>
    have hadd : (d.addRecord buf driver desc).epConfigs.length = found := by
      rw [InitDevice.addRecord, if_neg htype, hfound]
    exact scanEndpoints_below (by omega) h hnum hp hextent (ih hadd (next_eq_some.mp h).2)

theorem InterfacesReadable.scan (d : InitDevice) (h : InterfacesReadable buf len p ifIndex) (hp : (p : Int) < len) :
    ∃ fuel result, scanInterfaces buf len fuel p ifIndex d = some result ∧ ∀ i ∈ result.2.2, (i : Int) < len := by
  induction h with
  | last h =>
    refine ⟨2, _, scanInterfaces_last (nextInterface_last h), ?_⟩
    intro i hi
    rw [List.mem_singleton.mp hi]
    exact hp
  | @other p ifIndex desc h hlength htype hextent hrest ih =>
    obtain ⟨fuel, result, hscan, hbelow⟩ := ih (next_eq_some.mp h).2
    refine ⟨fuel + 1, _, scanInterfaces_other h htype hscan, ?_⟩
    exact List.forall_mem_append.mpr ⟨pair_below hp (by omega), hbelow⟩
  | @interface p ifIndex desc h hlength htype hdriver hextent hrest ih =>
    obtain ⟨fuel, result, hscan, hbelow⟩ := ih (next_eq_some.mp h).2
    cases fuel with
    | zero => cases hscan
    | succ fuel =>
      have hreads : ∀ i ∈ [p, desc + 1] ++ interfaceReads buf ifIndex desc, (i : Int) < len := by
        refine List.forall_mem_append.mpr ⟨pair_below hp ?_, interfaceReads_below.mpr hextent⟩
        split at hextent <;> omega
      refine ⟨fuel + 2, (result.1, result.2.1, [p, desc + 1] ++ interfaceReads buf ifIndex desc ++ result.2.2), ?_,
        List.forall_mem_append.mpr ⟨hreads, hbelow⟩⟩
      rw [scanInterfaces_skip (nextInterface_found h htype) hdriver, hscan]
      rfl
  | @driver p ifIndex desc driver h htype hdriver hextent hrest =>
    have hnum : ((desc + 4 : Nat) : Int) < len := by
      split at hextent <;> omega
    have hempty : InitDevice.epConfigs { d with epConfigs := [] } = [] := rfl
    obtain ⟨fuel, result, hscan, hbelow⟩ :=
      hrest.scan (congrArg List.length hempty) (next_eq_some.mp h).2 hnum
    cases fuel with
    | zero => cases hscan
    | succ fuel =>
      have hreads : ∀ i ∈ [p, desc + 1] ++ interfaceReads buf ifIndex desc, (i : Int) < len :=
        List.forall_mem_append.mpr ⟨pair_below hp (by omega), interfaceReads_below.mpr hextent⟩
      refine ⟨fuel + 2, (if result.1 then some driver else none, result.2.1,
        [p, desc + 1] ++ interfaceReads buf ifIndex desc ++ result.2.2), ?_,
        List.forall_mem_append.mpr ⟨hreads, hbelow⟩⟩
      rw [scanInterfaces_driver (nextInterface_found h htype) hdriver, hscan]
      rfl

/-! ## What is read was readable -/

/-- A record of length zero is the next one itself. -/
theorem next_of_zero (h : next buf len p = some desc) (hzero : buf p = 0) : desc = p := by
  have hsum := (next_eq_some.mp h).1
  rw [hzero] at hsum
  exact hsum.symm

theorem EndpointsReadable.of_scan {result : Bool × InitDevice × List Nat}
    (h : scanEndpoints buf len driver ifDesc fuel p d = some result) (hbelow : ∀ i ∈ result.2.2, (i : Int) < len) :
    EndpointsReadable buf len ifDesc p d.epConfigs.length := by
  induction fuel generalizing p d result with
  | zero => cases h
  | succ fuel ih =>
    by_cases hmore : d.epConfigs.length < (buf (ifDesc + 4)).toNat
    · cases hnext : next buf len p with
      | none => exact .last hmore hnext
      | some desc =>
        rw [scanEndpoints_record hmore hnext] at h
        obtain ⟨rest, hrest, rfl⟩ := Option.map_eq_some_iff.mp h
        rw [List.forall_mem_append, List.forall_mem_append, recordReads_below] at hbelow
        have hreadable := ih hrest hbelow.2
        by_cases htype : buf (desc + 1) = EndpointDescriptor.kType
        · have hadd : (d.addRecord buf driver desc).epConfigs.length = d.epConfigs.length + 1 := by
            rw [InitDevice.addRecord, if_pos htype]
            exact List.length_append
          exact .endpoint hmore hnext htype hbelow.1.2 (hadd ▸ hreadable)
        · rw [InitDevice.addRecord, if_neg htype] at hreadable
          refine .other hmore hnext ?_ htype hbelow.1.2 hreadable
          -- a record without a length would be followed by itself
          intro hzero
          obtain rfl := next_of_zero hnext hzero
          cases hreadable with
          | complete h => omega
          | last _ h => cases h.symm.trans hnext
          | endpoint _ h htype' => exact htype (next_of_zero h hzero ▸ htype')
          | other _ _ hlength => exact hlength hzero
    · exact .complete (by omega)

/-- A record without a length is the one behind it, and that is not passed either unless it has a driver. -/
theorem InterfacesReadable.length_ne_zero (h : InterfacesReadable buf len desc ifIndex)
    (hnext : next buf len p = some desc)
    (hnone : buf (desc + 1) = InterfaceDescriptor.kType → findClassDriver buf desc = none) : buf p ≠ 0 := by
  intro hzero
  obtain rfl := next_of_zero hnext hzero
  cases h with
  | last h => cases h.symm.trans hnext
  | other _ hlength => exact hlength hzero
  | interface _ hlength => exact hlength hzero
  | driver h htype hdriver =>
    obtain rfl := next_of_zero h hzero
    cases (hnone htype).symm.trans hdriver

/-- The records before an interface that is found can be read if the rest can. -/
theorem InterfacesReadable.of_next {result : Option Nat × List Nat}
    (h : nextInterface buf len fuel p = some result) (hbelow : ∀ i ∈ result.2, (i : Int) < len)
    (hrest : ∀ ifDesc, result.1 = some ifDesc → buf (ifDesc + 1) = InterfaceDescriptor.kType →
      ∀ q, next buf len q = some ifDesc → InterfacesReadable buf len q ifIndex) :
    InterfacesReadable buf len p ifIndex := by
  induction fuel generalizing p result with
  | zero => cases h
  | succ fuel ih =>
    cases hnext : next buf len p with
    | none => exact .last hnext
    | some desc =>
      by_cases htype : buf (desc + 1) = InterfaceDescriptor.kType
      · rw [nextInterface_found hnext htype] at h
        cases h
        exact hrest desc rfl htype p hnext
      · rw [nextInterface_other hnext htype] at h
        obtain ⟨later, hlater, rfl⟩ := Option.map_eq_some_iff.mp h
        rw [List.forall_mem_append] at hbelow
        have hreadable := ih hlater hbelow.2 hrest
        have htype_lt := hbelow.1 (desc + 1) (by simp)
        have hlength := hreadable.length_ne_zero hnext fun h => absurd h htype
        exact .other hnext hlength htype (by omega) hreadable

theorem InterfacesReadable.of_scan {result : Option ClassDriver × InitDevice × List Nat}
    (h : scanInterfaces buf len fuel p ifIndex d = some result) (hbelow : ∀ i ∈ result.2.2, (i : Int) < len) :
    InterfacesReadable buf len p ifIndex := by
  induction fuel generalizing p ifIndex result with
  | zero => cases h
  | succ fuel ih =>
    obtain ⟨⟨found, reads⟩, hfound⟩ := nextInterface_of_scan h
    cases found with
    | none =>
      rw [scanInterfaces_last hfound] at h
      cases h
      exact .of_next hfound hbelow fun _ hnone => by cases hnone
    | some ifDesc =>
      cases hdriver : findClassDriver buf ifDesc with
      | none =>
        rw [scanInterfaces_skip hfound hdriver] at h
        obtain ⟨rest, hrest, rfl⟩ := Option.map_eq_some_iff.mp h
        rw [List.forall_mem_append, List.forall_mem_append, interfaceReads_below] at hbelow
        have hreadable := ih hrest hbelow.2
        refine .of_next hfound hbelow.1.1 ?_
        intro desc hdesc htype q hnext
        cases hdesc
        have hlength := hreadable.length_ne_zero hnext fun _ => hdriver
        exact .interface hnext hlength htype hdriver hbelow.1.2 hreadable
      | some driver =>
        rw [scanInterfaces_driver hfound hdriver] at h
        obtain ⟨rest, hrest, rfl⟩ := Option.map_eq_some_iff.mp h
        rw [List.forall_mem_append, List.forall_mem_append, interfaceReads_below] at hbelow
        refine .of_next hfound hbelow.1.1 ?_
        intro desc hdesc htype q hnext
        cases hdesc
        exact .driver hnext htype hdriver hbelow.1.2 (.of_scan hrest hbelow.2)

/-! ## The whole phase -/

/-- Where a driver has been found, an interface has been read that ends behind the configuration value. -/
theorem read_of_driver {result : Option ClassDriver × InitDevice × List Nat}
    (h : scanInterfaces buf len fuel p ifIndex d = some result) (hdriver : result.1 ≠ none) :
    ∃ i ∈ result.2.2, 5 ≤ i := by
  induction fuel generalizing p ifIndex result with
  | zero => cases h
  | succ fuel ih =>
    obtain ⟨⟨found, reads⟩, hfound⟩ := nextInterface_of_scan h
    cases found with
    | none =>
      rw [scanInterfaces_last hfound] at h
      cases h
      exact absurd rfl hdriver
    | some ifDesc =>
      have hclass : ifDesc + 5 ∈ interfaceReads buf ifIndex ifDesc := by simp [interfaceReads]
      cases hdriver : findClassDriver buf ifDesc with
      | none =>
        rw [scanInterfaces_skip hfound hdriver] at h
        obtain ⟨rest, -, rfl⟩ := Option.map_eq_some_iff.mp h
        exact ⟨ifDesc + 5, by simp [hclass], Nat.le_add_left _ _⟩
      | some driver =>
        rw [scanInterfaces_driver hfound hdriver] at h
        obtain ⟨rest, -, rfl⟩ := Option.map_eq_some_iff.mp h
        exact ⟨ifDesc + 5, by simp [hclass], Nat.le_add_left _ _⟩

theorem initializePhase3_eq (h : buf 1 = ConfigurationDescriptor.kType) :
    initializePhase3 buf len fuel d = (scanInterfaces buf len fuel 0 0 d).map fun result =>
      ⟨.kSuccess, if result.1 = none then none else some (buf 5), result.2.1,
        1 :: (result.2.2 ++ if result.1 = none then [] else [5])⟩ := by
  rw [initializePhase3, if_pos h]
  congr 1
  funext result
  obtain ⟨driver, d, reads⟩ := result
  cases driver with
  | none => simp
  | some driver => rfl

/-- A configuration descriptor that gives its own length as zero. -/
def zeroLength (i : Nat) : UInt8 := if i = 1 then ConfigurationDescriptor.kType else 0

end MikanSaos
