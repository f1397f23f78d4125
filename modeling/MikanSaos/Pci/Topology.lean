import MikanSaos.Pci.ScanBus
import MikanSaos.Reasoning.Listing

/-!
# Topology — which functions the scan finds

The bridges lead from a root bus to the other ones, so a scan is a depth-first walk.  Where the device 0:0 has
several functions, the source begins with the bus of function 1, and bus 0 is not a root for it.
-/

namespace MikanSaos.Pci

open Reasoning

/-! ## What is present -/

def ClassCode.isHostBridge (classCode : ClassCode) : Bool := classCode.base = 0x06 ∧ classCode.sub = 0x00

def Device.secondaryBus (config : ConfigSpace) (bridge : Device) : Nat :=
  Pci.secondaryBus config bridge.bus bridge.device bridge.function

def isMultiFunction (config : ConfigSpace) (bus device : Nat) : Bool :=
  !isSingleFunctionDevice (readHeaderType config bus device 0)

/-- The functions 1 to 7 count only for a device that has several. -/
structure FunctionOn (config : ConfigSpace) (bus device function : Nat) : Prop where
  device_lt : device < 32
  function_lt : function < 8
  answers : responds config bus device function = true
  counts : function = 0 ∨ responds config bus device 0 = true ∧ isMultiFunction config bus device = true

/-- Bus 0, and the bus of each host bridge where the device 0:0 has several functions. -/
def RootBus (config : ConfigSpace) (bus : Nat) : Prop :=
  bus = 0 ∨ isMultiFunction config 0 0 = true ∧ FunctionOn config 0 0 bus ∧
    (readClassCode config 0 0 bus).isHostBridge = true

/-- The functions on the root buses and behind bridges. -/
inductive Present (config : ConfigSpace) (recorded : Device → Prop) : Device → Prop
  | root {bus device function : Nat} (hroot : RootBus config bus) (h : FunctionOn config bus device function) :
      Present config recorded (deviceAt config bus device function)
  | behind {bridge : Device} {device function : Nat} (hbridge : Present config recorded bridge)
      (hrecorded : recorded bridge) (hclass : bridge.classCode.isPciBridge = true)
      (h : FunctionOn config (bridge.secondaryBus config) device function) :
      Present config recorded (deviceAt config (bridge.secondaryBus config) device function)

/-- Each bridge leads to a bus of its own, and none back to a root. -/
structure BridgeTree (config : ConfigSpace) : Prop where
  own_bus : ∀ bridge other, Present config (fun _ => True) bridge → Present config (fun _ => True) other →
    bridge.classCode.isPciBridge = true → other.classCode.isPciBridge = true →
    bridge.secondaryBus config = other.secondaryBus config → bridge = other
  no_root : ∀ bridge, Present config (fun _ => True) bridge → bridge.classCode.isPciBridge = true →
    ¬ RootBus config (bridge.secondaryBus config)

/-- Everything that is present is in the table once, and nothing else is. -/
def Complete (config : ConfigSpace) (devices : List Device) : Prop :=
  devices.Nodup ∧ ∀ x, x ∈ devices ↔ Present config (· ∈ devices) x

/-- The scan begins with the roots: there is one function at 0:0, or else neither bus 0 nor a bus that the scan
begins with has any function. -/
def ScansRoots (config : ConfigSpace) : Prop :=
  isMultiFunction config 0 0 = false ∨
    (∀ device < 32, responds config 0 device 0 = false) ∧
    ∀ function, 0 < function → function < 8 → responds config 0 0 function = true →
      ∀ device < 32, responds config function device 0 = false

/-! ## The order of the walk -/

variable {config : ConfigSpace} {t t' : DeviceTable} {answers : Nat → Bool} {bus device function depth : Nat}
  {scan scanOther : Nat → DeviceTable → Option (Error × DeviceTable)} {numbers : List Nat}
  {own : Nat → List Device} {x y : Device}

def functionsOf (config : ConfigSpace) (bus device : Nat) : List Device :=
  deviceAt config bus device 0 :: if isMultiFunction config bus device then
    ((List.range' 1 7).filter (responds config bus device)).map (deviceAt config bus device) else []

def functionsOn (config : ConfigSpace) (bus : Nat) : List Device :=
  ((List.range 32).filter (responds config bus · 0)).flatMap (functionsOf config bus)

/-- What is scanned right behind a function. -/
def children (config : ConfigSpace) (x : Device) : List Device :=
  if x.classCode.isPciBridge then functionsOn config (x.secondaryBus config) else []

theorem mem_functionsOf : x ∈ functionsOf config bus device ↔ deviceAt config bus device 0 = x ∨
    isMultiFunction config bus device = true ∧ ∃ function, (0 < function ∧ function < 8) ∧
      responds config bus device function = true ∧ deviceAt config bus device function = x := by
  have hrange : ∀ function, function ∈ List.range' 1 7 ↔ 0 < function ∧ function < 8 := by
    intro function
    rw [List.mem_range'_1]
    omega
  unfold functionsOf
  rw [List.mem_cons, eq_comm]
  split
  · rename_i hmulti
    simp only [List.mem_map, List.mem_filter, hrange, hmulti, true_and, and_assoc]
  · rename_i hmulti
    simp [hmulti]

theorem mem_functionsOn :
    x ∈ functionsOn config bus ↔ ∃ device function, FunctionOn config bus device function ∧
      deviceAt config bus device function = x := by
  unfold functionsOn
  simp only [List.mem_flatMap, List.mem_filter, List.mem_range, mem_functionsOf]
  constructor
  · intro h
    obtain ⟨device, ⟨hdevice, hanswers⟩, heq | ⟨hmulti, function, hrange, hresponds, heq⟩⟩ := h
    · exact ⟨device, 0, ⟨hdevice, by decide, hanswers, .inl rfl⟩, heq⟩
    · exact ⟨device, function, ⟨hdevice, hrange.2, hresponds, .inr ⟨hanswers, hmulti⟩⟩, heq⟩
  · intro h
    obtain ⟨device, function, hon, heq⟩ := h
    by_cases hzero : function = 0
    · subst hzero
      exact ⟨device, ⟨hon.device_lt, hon.answers⟩, .inl heq⟩
    · obtain ⟨hanswers, hmulti⟩ := hon.counts.resolve_left hzero
      exact ⟨device, ⟨hon.device_lt, hanswers⟩,
        .inr ⟨hmulti, function, ⟨Nat.pos_of_ne_zero hzero, hon.function_lt⟩, hon.answers, heq⟩⟩

theorem bus_eq_of_mem (h : x ∈ functionsOn config bus) : x.bus = bus := by
  obtain ⟨device, function, -, rfl⟩ := mem_functionsOn.mp h
  rfl

theorem device_eq_of_mem (h : x ∈ functionsOf config bus device) : x.device = device := by
  rcases mem_functionsOf.mp h with rfl | ⟨-, function, -, -, rfl⟩ <;> rfl

theorem nodup_functionsOf : (functionsOf config bus device).Nodup := by
  unfold functionsOf
  split
  · rw [List.nodup_cons]
    constructor
    · intro h
      obtain ⟨function, hfunction, heq⟩ := List.mem_map.mp h
      have hrange := List.mem_range'_1.mp (List.mem_filter.mp hfunction).1
      have hzero : function = 0 := congrArg Device.function heq
      omega
    · have hrange : (List.range' 1 7).Nodup := List.nodup_range'
      exact (hrange.filter _).map fun function other heq => congrArg Device.function heq
  · exact List.nodup_singleton _

theorem nodup_functionsOn : (functionsOn config bus).Nodup := by
  unfold functionsOn
  rw [List.nodup_flatMap]
  refine ⟨fun device _ => nodup_functionsOf, ?_⟩
  apply (List.nodup_range.filter _).imp
  intro device other hne x hx hother
  exact hne ((device_eq_of_mem hx).symm.trans (device_eq_of_mem hother))

/-! ## The scan as a walk -/

theorem DeviceTable.recorded_put : (t.put x).recorded = t.recorded ++ [x] := by
  unfold recorded
  change (List.range (t.numDevice + 1)).map (Function.update t.devices t.numDevice x) = _
  rw [List.range_succ, List.map_append, List.map_singleton, Function.update_self]
  congr 1
  apply List.map_congr_left
  intro i hi
  exact Function.update_of_ne (Nat.ne_of_lt (List.mem_range.mp hi)) x t.devices

/-- A scan without an error adds what a walk from `roots` lists. -/
def Walks (config : ConfigSpace) (roots : List Device) (scan : DeviceTable → Option (Error × DeviceTable)) : Prop :=
  ∀ t t', scan t = some (.kSuccess, t') →
    ∃ nodes, t'.recorded = t.recorded ++ nodes ∧ Listing (children config) roots nodes

theorem scanEach_walks (hscan : ∀ n, Walks config (own n) (scan n)) :
    Walks config ((numbers.filter answers).flatMap own) (scanEach answers scan numbers) := by
  induction numbers with
  | nil =>
    intro t t' hrun
    cases hrun
    exact ⟨[], (List.append_nil _).symm, .nil⟩
  | cons n rest ih =>
    intro t t' hrun
    rw [scanEach] at hrun
    split at hrun
    · rename_i hanswers
      obtain ⟨⟨err, mid⟩, hfirst, hrest⟩ := Option.bind_eq_some_iff.mp hrun
      dsimp only at hrest
      split at hrest
      · rename_i hsuccess
        subst hsuccess
        obtain ⟨nodes, hnodes, hwalk⟩ := hscan n t mid hfirst
        obtain ⟨later, hlater, hwalk'⟩ := ih mid t' hrest
        refine ⟨nodes ++ later, by rw [hlater, hnodes, List.append_assoc], ?_⟩
        rw [List.filter_cons_of_pos hanswers, List.flatMap_cons]
        exact hwalk.append hwalk'
      · rename_i herror
        exact absurd (Prod.mk.inj (Option.some.inj hrest)).1 herror
    · rename_i hanswers
      rw [List.filter_cons_of_neg hanswers]
      exact ih t t' hrun

theorem scanFunction_walks (hscan : ∀ bus, Walks config (functionsOn config bus) (scanOther bus)) :
    Walks config [deviceAt config bus device function] (scanFunction config scanOther bus device function) := by
  intro t t' hrun
  unfold scanFunction DeviceTable.addDevice at hrun
  by_cases hfull : t.numDevice = tableSize
  · simp [hfull] at hrun
  · simp only [hfull, if_false, if_true] at hrun
    -- nothing is listed behind a function that is no bridge
    obtain ⟨below, hbelow, hwalk⟩ : ∃ below, t'.recorded = (t.put (deviceAt config bus device function)).recorded ++
        below ∧ Listing (children config) (children config (deviceAt config bus device function)) below := by
      split at hrun
      · rename_i hclass
        have hchildren : children config (deviceAt config bus device function) =
            functionsOn config (secondaryBus config bus device function) := if_pos hclass
        rw [hchildren]
        exact hscan _ _ t' hrun
      · rename_i hclass
        have hchildren : children config (deviceAt config bus device function) = [] := if_neg hclass
        rw [hchildren]
        exact ⟨[], by rw [(Prod.mk.inj (Option.some.inj hrun)).2, List.append_nil], .nil⟩
    rw [DeviceTable.recorded_put, List.append_assoc] at hbelow
    have hnode := Listing.node hwalk .nil
    rw [List.append_nil] at hnode
    exact ⟨_, hbelow, hnode⟩

theorem scanDevice_walks (hscan : ∀ bus, Walks config (functionsOn config bus) (scanOther bus)) :
    Walks config (functionsOf config bus device) (scanDevice config scanOther bus device) := by
  intro t t' hrun
  unfold scanDevice at hrun
  obtain ⟨⟨err, mid⟩, hfirst, hrest⟩ := Option.bind_eq_some_iff.mp hrun
  dsimp only at hrest
  by_cases hsuccess : err = .kSuccess
  · subst hsuccess
    rw [if_pos rfl] at hrest
    obtain ⟨nodes, hnodes, hwalk⟩ := scanFunction_walks hscan t mid hfirst
    obtain ⟨later, hlater, hwalk'⟩ : ∃ later, t'.recorded = mid.recorded ++ later ∧ Listing (children config)
        (if isMultiFunction config bus device then
          ((List.range' 1 7).filter (responds config bus device)).map (deviceAt config bus device) else []) later := by
      unfold isMultiFunction
      split at hrest
      · rename_i hsingle
        rw [hsingle]
        exact ⟨[], by rw [(Prod.mk.inj (Option.some.inj hrest)).2, List.append_nil], .nil⟩
      · rename_i hmulti
        rw [Bool.not_eq_true] at hmulti
        rw [hmulti, List.map_eq_flatMap]
        exact scanEach_walks (fun _ => scanFunction_walks hscan) mid t' hrest
    exact ⟨nodes ++ later, by rw [hlater, hnodes, List.append_assoc], hwalk.append hwalk'⟩
  · rw [if_neg hsuccess] at hrest
    exact absurd (Prod.mk.inj (Option.some.inj hrest)).1 hsuccess

theorem scanBus_walks : Walks config (functionsOn config bus) (scanBus config depth bus) := by
  induction depth generalizing bus with
  | zero => exact fun t t' hrun => by cases hrun
  | succ depth ih => exact scanEach_walks fun _ => scanDevice_walks fun _ => ih

/-- What the scan begins with. -/
def scannedRoots (config : ConfigSpace) : List Device :=
  if isMultiFunction config 0 0 then ((List.range' 1 7).filter (responds config 0 0)).flatMap (functionsOn config)
  else functionsOn config 0

theorem scanAllBus_walks (hrun : scanAllBus config depth t = some (.kSuccess, t')) :
    Listing (children config) (scannedRoots config) t'.recorded := by
  have hwalks : Walks config (scannedRoots config) fun t =>
      if isSingleFunctionDevice (readHeaderType config 0 0 0) then scanBus config depth 0 t
      else scanEach (responds config 0 0) (scanBus config depth) (List.range' 1 7) t := by
    unfold scannedRoots isMultiFunction
    cases isSingleFunctionDevice (readHeaderType config 0 0 0) with
    | true => exact scanBus_walks
    | false => exact scanEach_walks fun _ => scanBus_walks
  obtain ⟨nodes, hnodes, hwalk⟩ := hwalks _ t' hrun
  rw [hnodes]
  exact hwalk

/-! ## What is found -/

theorem Present.all {recorded : Device → Prop} (h : Present config recorded x) :
    Present config (fun _ => True) x := by
  induction h with
  | root hroot hon => exact .root hroot hon
  | behind _ _ hclass hon ih => exact .behind ih trivial hclass hon

theorem mem_children : y ∈ children config x ↔ x.classCode.isPciBridge = true ∧
    y ∈ functionsOn config (x.secondaryBus config) := by
  unfold children
  split
  · simp [*]
  · simp [*]

theorem Present.child {recorded : Device → Prop} (h : Present config recorded x) (hx : recorded x)
    (hy : y ∈ children config x) : Present config recorded y := by
  obtain ⟨hclass, hon⟩ := mem_children.mp hy
  obtain ⟨device, function, hfunction, rfl⟩ := mem_functionsOn.mp hon
  exact .behind h hx hclass hfunction

/-- Behind a bridge of the tree is no root bus. -/
theorem BridgeTree.not_rootBus (htree : BridgeTree config) (hx : Present config (fun _ => True) x)
    (hy : y ∈ children config x) : ¬ RootBus config y.bus := by
  obtain ⟨hclass, hon⟩ := mem_children.mp hy
  rw [bus_eq_of_mem hon]
  exact htree.no_root x hx hclass

/-- A scan that begins with bus 0 where that is the only root. -/
theorem complete_of_single (htree : BridgeTree config) {devices : List Device}
    (hsingle : isMultiFunction config 0 0 = false)
    (hwalk : Listing (children config) (functionsOn config 0) devices) : Complete config devices := by
  have hroot : ∀ bus, RootBus config bus ↔ bus = 0 := by
    intro bus
    simp [RootBus, hsingle]
  have hpresent : ∀ x ∈ devices, Present config (· ∈ devices) x := by
    intro x hx
    have hboth : x ∈ devices ∧ Present config (· ∈ devices) x := by
      apply (hwalk.reached hx).invariant
      · intro y hy
        obtain ⟨device, function, hon, rfl⟩ := mem_functionsOn.mp hy
        exact ⟨hwalk.mem_of_root hy, .root ((hroot 0).mpr rfl) hon⟩
      · intro y z hy hz
        exact ⟨hwalk.mem_of_child hy.1 hz, hy.2.child hy.1 hz⟩
    exact hboth.2
  refine ⟨?_, fun x => ⟨hpresent x, ?_⟩⟩
  · apply hwalk.nodup nodup_functionsOn
    · intro y hy
      unfold children
      split
      · exact nodup_functionsOn
      · exact List.nodup_nil
    · intro y hy x hx hmem
      exact htree.not_rootBus (hpresent y hy).all hx ((hroot _).mpr (bus_eq_of_mem hmem))
    · intro y hy z hz x hxy hxz
      obtain ⟨hclassy, hony⟩ := mem_children.mp hxy
      obtain ⟨hclassz, honz⟩ := mem_children.mp hxz
      exact htree.own_bus z y (hpresent z hz).all (hpresent y hy).all hclassz hclassy
        ((bus_eq_of_mem honz).symm.trans (bus_eq_of_mem hony))
  · intro hx
    induction hx with
    | root hbus hon =>
      rw [(hroot _).mp hbus] at hon ⊢
      exact hwalk.mem_of_root (mem_functionsOn.mpr ⟨_, _, hon, rfl⟩)
    | behind _ hrecorded hclass hon _ =>
      exact hwalk.mem_of_child hrecorded (mem_children.mpr ⟨hclass, mem_functionsOn.mpr ⟨_, _, hon, rfl⟩⟩)

/-- Without a function on bus 0 nothing is present. -/
theorem not_present {recorded : Device → Prop} (hnone : ∀ device < 32, responds config 0 device 0 = false) :
    ¬ Present config recorded x := by
  have hon : ∀ device function, ¬ FunctionOn config 0 device function := by
    intro device function hon
    have hzero := hnone device hon.device_lt
    cases hon.counts with
    | inl h =>
      have hanswers := hon.answers
      rw [h, hzero] at hanswers
      cases hanswers
    | inr h => cases hzero.symm.trans h.1
  intro hx
  induction hx with
  | root hroot h =>
    cases hroot with
    | inl hbus => exact hon _ _ (hbus ▸ h)
    | inr hhost => exact hon _ _ hhost.2.1
  | behind _ _ _ _ ih => exact ih

theorem functionsOn_eq_nil : functionsOn config bus = [] ↔ ∀ device < 32, responds config bus device 0 = false := by
  unfold functionsOn
  rw [List.flatMap_eq_nil_iff]
  simp [functionsOf]

/-- A scan that does not begin with bus 0 lists nothing that is on it. -/
theorem bus_ne_zero (htree : BridgeTree config) {devices : List Device}
    (hmulti : isMultiFunction config 0 0 = true) (hwalk : Listing (children config) (scannedRoots config) devices)
    (hpresent : ∀ x ∈ devices, Present config (fun _ => True) x) (hx : x ∈ devices) : x.bus ≠ 0 := by
  intro hbus
  cases hwalk.reached hx with
  | start hroot =>
    rw [scannedRoots, if_pos hmulti] at hroot
    obtain ⟨function, hfunction, hon⟩ := List.mem_flatMap.mp hroot
    have hrange := List.mem_range'_1.mp (List.mem_filter.mp hfunction).1
    have hsame := bus_eq_of_mem hon
    omega
  | next hparent hchild =>
    exact htree.not_rootBus (hpresent _ (hwalk.mem_iff.mpr hparent)) hchild (.inl hbus)

/-- A device 0:0 with several functions: either nothing is present and nothing is found, or the scan is not
complete. -/
theorem complete_iff_of_multi (htree : BridgeTree config) {devices : List Device}
    (hmulti : isMultiFunction config 0 0 = true) (hwalk : Listing (children config) (scannedRoots config) devices) :
    Complete config devices ↔ ScansRoots config := by
  have hroots : scannedRoots config = [] ↔ ∀ function, 0 < function → function < 8 →
      responds config 0 0 function = true → ∀ device < 32, responds config function device 0 = false := by
    rw [scannedRoots, if_pos hmulti, List.flatMap_eq_nil_iff]
    simp only [List.mem_filter, List.mem_range'_1, functionsOn_eq_nil, and_imp]
    exact forall_congr' fun function => Iff.rfl
  constructor
  · intro hcomplete
    obtain ⟨-, hiff⟩ := hcomplete
    have hnone : ∀ device < 32, responds config 0 device 0 = false := by
      intro device hdevice
      by_contra hanswers
      rw [Bool.not_eq_false] at hanswers
      have hpresent : Present config (· ∈ devices) (deviceAt config 0 device 0) :=
        .root (.inl rfl) ⟨hdevice, by decide, hanswers, .inl rfl⟩
      exact bus_ne_zero htree hmulti hwalk (fun x hx => ((hiff x).mp hx).all) ((hiff _).mpr hpresent) rfl
    refine .inr ⟨hnone, hroots.mp ?_⟩
    rw [List.eq_nil_iff_forall_not_mem]
    intro x hx
    exact not_present hnone ((hiff x).mp (hwalk.mem_of_root hx))
  · intro hscans
    cases hscans with
    | inl hsingle => cases hmulti.symm.trans hsingle
    | inr hscans =>
      rw [hroots.mpr hscans.2] at hwalk
      cases hwalk
      exact ⟨List.nodup_nil, fun x => iff_of_false List.not_mem_nil (not_present hscans.1)⟩

/-- One host bridge at 0:0 and nothing else. -/
def hostBridgeOnly (headerType : BitVec 32) (bus device function reg : Nat) : BitVec 32 :=
  if bus = 0 ∧ device = 0 ∧ function = 0 then
    if reg = 0x00 then 0x12378086 else if reg = 0x08 then 0x06000000
    else if reg = 0x0c then headerType <<< 16 else 0
  else 0xffffffff

def emptyTable : DeviceTable := ⟨fun _ => ⟨0, 0, 0, 0, 0, 0, 0⟩, 0, []⟩

theorem hostBridgeOnly_functionOn {headerType : BitVec 32}
    (h : FunctionOn (hostBridgeOnly headerType) bus device function) : bus = 0 ∧ device = 0 ∧ function = 0 := by
  by_contra hne
  have hanswers := h.answers
  rw [responds, readVendorId, hostBridgeOnly, if_neg hne] at hanswers
  revert hanswers
  decide

theorem hostBridgeOnly_present {headerType : BitVec 32} {recorded : Device → Prop}
    (h : Present (hostBridgeOnly headerType) recorded x) : x.classCode.isPciBridge = false := by
  have hclass : ∀ bus device function, FunctionOn (hostBridgeOnly headerType) bus device function →
      (deviceAt (hostBridgeOnly headerType) bus device function).classCode.isPciBridge = false := by
    intro bus device function hon
    obtain ⟨rfl, rfl, rfl⟩ := hostBridgeOnly_functionOn hon
    simp [deviceAt, readClassCode, hostBridgeOnly, ClassCode.isPciBridge]
  cases h with
  | root hroot hon => exact hclass _ _ _ hon
  | behind hbridge hrecorded hclass' hon => exact hclass _ _ _ hon

theorem hostBridgeOnly_tree {headerType : BitVec 32} : BridgeTree (hostBridgeOnly headerType) := by
  constructor
  · intro bridge other hbridge hother hclass
    cases (hostBridgeOnly_present hbridge).symm.trans hclass
  · intro bridge hbridge hclass
    cases (hostBridgeOnly_present hbridge).symm.trans hclass

end MikanSaos.Pci
