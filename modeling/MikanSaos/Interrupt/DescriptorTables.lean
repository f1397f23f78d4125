import MikanSaos.Assembly.InitContext
import MikanSaos.Reasoning.BitFields

/-!
# DescriptorTables — what the processor finds in the GDT, the TSS and the IDT

A descriptor is the number that its bytes are, lowest byte first, and its fields are ranges of bits.  The addresses of
the handlers, of the stacks and of the TSS are arbitrary.
-/

open Reasoning

namespace MikanSaos

inductive DescriptorType where
  | kUpper8Bytes | kLDT | kTSSAvailable | kTSSBusy | kCallGate | kInterruptGate | kTrapGate
  -- code & data segment types
  | kReadWrite | kExecuteRead
  deriving DecidableEq, Repr

def DescriptorType.value : DescriptorType → Nat
  | kUpper8Bytes => 0
  | kLDT => 2
  | kTSSAvailable => 9
  | kTSSBusy => 11
  | kCallGate => 12
  | kInterruptGate => 14
  | kTrapGate => 15
  | kReadWrite => 2
  | kExecuteRead => 10

/-! ## Segment descriptors -/

namespace SegmentDescriptor

def limitLow : BitField := ⟨0, 16⟩
def baseLow : BitField := ⟨16, 16⟩
def baseMiddle : BitField := ⟨32, 8⟩
def type : BitField := ⟨40, 4⟩
def systemSegment : BitField := ⟨44, 1⟩
def descriptorPrivilegeLevel : BitField := ⟨45, 2⟩
def present : BitField := ⟨47, 1⟩
def limitHigh : BitField := ⟨48, 4⟩
def available : BitField := ⟨52, 1⟩
def longMode : BitField := ⟨53, 1⟩
def defaultOperationSize : BitField := ⟨54, 1⟩
def granularity : BitField := ⟨55, 1⟩
def baseHigh : BitField := ⟨56, 8⟩

end SegmentDescriptor

open SegmentDescriptor in
/-- The assignments of `SetCodeSegment`. -/
def codeFields (t : DescriptorType) (dpl base limit : Nat) : List (BitField × Nat) := [
  (baseLow, base &&& 0xffff),
  (baseMiddle, base >>> 16 &&& 0xff),
  (baseHigh, base >>> 24 &&& 0xff),

  (limitLow, limit &&& 0xffff),
  (limitHigh, limit >>> 16 &&& 0xf),

  (type, t.value),
  (systemSegment, 1),
  (descriptorPrivilegeLevel, dpl),
  (present, 1),
  (available, 0),
  (longMode, 1),
  (defaultOperationSize, 0),
  (granularity, 1)]

def setCodeSegment (t : DescriptorType) (dpl base limit : Nat) : Nat := BitField.assign 0 (codeFields t dpl base limit)

def setDataSegment (t : DescriptorType) (dpl base limit : Nat) : Nat :=
  BitField.assign (setCodeSegment t dpl base limit)
    [(SegmentDescriptor.longMode, 0), (SegmentDescriptor.defaultOperationSize, 1)]

def setSystemSegment (t : DescriptorType) (dpl base limit : Nat) : Nat :=
  BitField.assign (setCodeSegment t dpl base limit)
    [(SegmentDescriptor.systemSegment, 0), (SegmentDescriptor.longMode, 0)]

/-- What the processor takes from a descriptor. -/
structure SegmentView where
  base : Nat
  /-- The offset of the last byte -/
  limit : Nat
  type : Nat
  system : Nat
  dpl : Nat
  present : Nat
  long : Nat
  big : Nat
  deriving DecidableEq, Repr

open SegmentDescriptor in
def segmentView (data : Nat) : SegmentView where
  base := BitField.get data baseLow + 2 ^ 16 * BitField.get data baseMiddle + 2 ^ 24 * BitField.get data baseHigh
  limit :=
    let limit := BitField.get data limitLow + 2 ^ 16 * BitField.get data limitHigh
    if BitField.get data granularity = 1 then 4096 * limit + 4095 else limit
  type := BitField.get data type
  system := BitField.get data systemSegment
  dpl := BitField.get data descriptorPrivilegeLevel
  present := BitField.get data present
  long := BitField.get data longMode
  big := BitField.get data defaultOperationSize

/-! ## The GDT and the TSS -/

def kTSS : Nat := 5 <<< 3
def kISTForTimer : Nat := 1

/-- `gdt` and `tss` -/
structure Segmentation where
  gdt : Nat → Nat
  tss : Nat → Nat

namespace Segmentation

/-- `SetupSegments` -/
def setupSegments (s : Segmentation) : Segmentation :=
  let gdt := Function.update s.gdt 0 0
  let gdt := Function.update gdt 1 (setCodeSegment .kExecuteRead 0 0 0xfffff)
  let gdt := Function.update gdt 2 (setDataSegment .kReadWrite 0 0 0xfffff)
  let gdt := Function.update gdt 3 (setDataSegment .kReadWrite 3 0 0xfffff)
  let gdt := Function.update gdt 4 (setCodeSegment .kExecuteRead 3 0 0xfffff)
  { s with gdt }

def setTSS (s : Segmentation) (index value : Nat) : Segmentation :=
  { s with tss := Function.update (Function.update s.tss index (value &&& 0xffffffff)) (index + 1) (value >>> 32) }

/-- `InitializeTSS`, where the two stacks have the ends `stack0` and `stack1`. -/
def initializeTSS (s : Segmentation) (stack0 stack1 tssAddr : Nat) : Segmentation :=
  let s := s.setTSS 1 stack0
  let s := s.setTSS (7 + 2 * kISTForTimer) stack1
  let gdt := Function.update s.gdt (kTSS >>> 3)
    (setSystemSegment .kTSSAvailable 0 (tssAddr &&& 0xffffffff) (26 * 4 - 1))
  let gdt := Function.update gdt ((kTSS >>> 3) + 1) (tssAddr >>> 32)
  { s with gdt }

/-- Two words of the TSS, which are aligned to 4 bytes. -/
def tssQword (s : Segmentation) (index : Nat) : Nat := s.tss index + 2 ^ 32 * s.tss (index + 1)

def rsp0 (s : Segmentation) : Nat := s.tssQword 1
def ist (s : Segmentation) (n : Nat) : Nat := s.tssQword (7 + 2 * n)

/-- The base in a descriptor of 16 bytes. -/
def systemBase (s : Segmentation) (selector : Nat) : Nat :=
  (segmentView (s.gdt (selector >>> 3))).base + 2 ^ 32 * (s.gdt ((selector >>> 3) + 1) % 2 ^ 32)

end Segmentation

/-! ## The IDT -/

namespace InterruptDescriptor

def offsetLow : BitField := ⟨0, 16⟩
def segmentSelector : BitField := ⟨16, 16⟩
def interruptStackTable : BitField := ⟨32, 3⟩
def type : BitField := ⟨40, 4⟩
def descriptorPrivilegeLevel : BitField := ⟨45, 2⟩
def present : BitField := ⟨47, 1⟩
def offsetMiddle : BitField := ⟨48, 16⟩
def offsetHigh : BitField := ⟨64, 32⟩

end InterruptDescriptor

open InterruptDescriptor in
/-- The assignments of `SetIDTEntry`. -/
def gateFields (t : DescriptorType) (dpl offset selector stackTable : Nat) (isPresent : Bool) :
    List (BitField × Nat) := [
  (interruptStackTable, stackTable),
  (type, t.value),
  (descriptorPrivilegeLevel, dpl),
  (present, isPresent.toNat),
  (offsetLow, offset &&& 0xffff),
  (offsetMiddle, offset >>> 16 &&& 0xffff),
  (offsetHigh, offset >>> 32),
  (segmentSelector, selector)]

def setIDTEntry (desc : Nat) (t : DescriptorType) (dpl offset selector stackTable : Nat) (isPresent : Bool) : Nat :=
  BitField.assign desc (gateFields t dpl offset selector stackTable isPresent)

/-- What the processor takes from an entry. -/
structure GateView where
  offset : Nat
  selector : Nat
  stackTable : Nat
  type : Nat
  dpl : Nat
  deriving DecidableEq, Repr

open InterruptDescriptor in
/-- An entry that is not present delivers nothing. -/
def gateView (desc : Nat) : Option GateView :=
  if BitField.get desc present = 0 then none
  else some {
    offset := BitField.get desc offsetLow + 2 ^ 16 * BitField.get desc offsetMiddle +
      2 ^ 32 * BitField.get desc offsetHigh
    selector := BitField.get desc segmentSelector
    stackTable := BitField.get desc interruptStackTable
    type := BitField.get desc type
    dpl := BitField.get desc descriptorPrivilegeLevel }

def kXHCI : Nat := 51
def kLAPICTimer : Nat := 52

/-- The entries that `InitializeInterrupt` sets, in order, each with its stack. -/
def idtEntries : List (Nat × Nat) :=
  (kXHCI, 0) :: (kLAPICTimer, kISTForTimer) ::
    [0, 1, 3, 4, 5, 6, 7, 8, 10, 11, 12, 13, 14, 16, 17, 18, 19, 20].map (·, 0)

/-- `InitializeInterrupt`; `handler` gives the address of the function for a vector. -/
def initializeInterrupt (handler : Nat → Nat) (idt : Nat → Nat) : Nat → Nat :=
  idtEntries.foldl (fun idt entry => Function.update idt entry.1
    (setIDTEntry (idt entry.1) .kInterruptGate 0 (handler entry.1) Assembly.kKernelCS.toNat entry.2 true)) idt

/-! ## What is read back -/

section Views

variable {t : DescriptorType} {dpl base limit offset selector stackTable index value : Nat} {isPresent : Bool}

theorem codeFields_apart : ((codeFields t dpl base limit).map Prod.fst).Pairwise BitField.Apart := by
  simp only [codeFields, List.map_cons, List.map_nil]
  decide

theorem gateFields_apart :
    ((gateFields t dpl offset selector stackTable isPresent).map Prod.fst).Pairwise BitField.Apart := by
  simp only [gateFields, List.map_cons, List.map_nil]
  decide

theorem get_setCodeSegment {f : BitField} {v : Nat} (h : (f, v) ∈ codeFields t dpl base limit) :
    BitField.get (setCodeSegment t dpl base limit) f = v % 2 ^ f.width := BitField.get_assign codeFields_apart h

theorem get_setIDTEntry {f : BitField} {v : Nat} (desc : Nat)
    (h : (f, v) ∈ gateFields t dpl offset selector stackTable isPresent) :
    BitField.get (setIDTEntry desc t dpl offset selector stackTable isPresent) f = v % 2 ^ f.width :=
  BitField.get_assign gateFields_apart h

theorem mask_mod (n k : Nat) : (n &&& (2 ^ k - 1)) % 2 ^ k = n % 2 ^ k := by
  rw [Nat.and_two_pow_sub_one_eq_mod, Nat.mod_mod]

/-- The three parts of the base. -/
theorem base_parts (base : Nat) : (base &&& 0xffff) % 2 ^ 16 + 2 ^ 16 * ((base >>> 16 &&& 0xff) % 2 ^ 8) +
    2 ^ 24 * ((base >>> 24 &&& 0xff) % 2 ^ 8) = base % 2 ^ 32 := by
  have hlow := mask_mod base 16
  have hmiddle := mask_mod (base >>> 16) 8
  have hhigh := mask_mod (base >>> 24) 8
  rw [Nat.shiftRight_eq_div_pow] at hmiddle hhigh
  rw [Nat.shiftRight_eq_div_pow, Nat.shiftRight_eq_div_pow]
  simp only [Nat.reducePow, Nat.reduceSub] at hlow hmiddle hhigh ⊢
  omega

theorem limit_parts (limit : Nat) :
    (limit &&& 0xffff) % 2 ^ 16 + 2 ^ 16 * ((limit >>> 16 &&& 0xf) % 2 ^ 4) = limit % 2 ^ 20 := by
  have hlow := mask_mod limit 16
  have hhigh := mask_mod (limit >>> 16) 4
  rw [Nat.shiftRight_eq_div_pow] at hhigh
  rw [Nat.shiftRight_eq_div_pow]
  simp only [Nat.reducePow, Nat.reduceSub] at hlow hhigh ⊢
  omega

theorem offset_parts (offset : Nat) : (offset &&& 0xffff) % 2 ^ 16 + 2 ^ 16 * ((offset >>> 16 &&& 0xffff) % 2 ^ 16) +
    2 ^ 32 * ((offset >>> 32) % 2 ^ 32) = offset % 2 ^ 64 := by
  have hlow := mask_mod offset 16
  have hmiddle := mask_mod (offset >>> 16) 16
  rw [Nat.shiftRight_eq_div_pow] at hmiddle
  rw [Nat.shiftRight_eq_div_pow, Nat.shiftRight_eq_div_pow]
  simp only [Nat.reducePow, Nat.reduceSub] at hlow hmiddle ⊢
  omega

open SegmentDescriptor in
theorem segmentView_code (t : DescriptorType) (dpl base limit : Nat) :
    segmentView (setCodeSegment t dpl base limit) =
      ⟨base % 2 ^ 32, 4096 * (limit % 2 ^ 20) + 4095, t.value, 1, dpl % 4, 1, 1, 0⟩ := by
  have ht : t.value % 2 ^ 4 = t.value := by cases t <;> rfl
  have hfield : ∀ i f v, (codeFields t dpl base limit)[i]? = some (f, v) →
      BitField.get (setCodeSegment t dpl base limit) f = v % 2 ^ f.width :=
    fun i f v h => get_setCodeSegment (List.mem_of_getElem? h)
  unfold segmentView
  rw [hfield 0 baseLow _ rfl, hfield 1 baseMiddle _ rfl, hfield 2 baseHigh _ rfl, hfield 3 limitLow _ rfl,
    hfield 4 limitHigh _ rfl, hfield 5 type _ rfl, hfield 6 systemSegment _ rfl,
    hfield 7 descriptorPrivilegeLevel _ rfl, hfield 8 present _ rfl, hfield 10 longMode _ rfl,
    hfield 11 defaultOperationSize _ rfl, hfield 12 granularity _ rfl]
  rw [SegmentView.mk.injEq]
  refine ⟨base_parts base, ?_, ht, rfl, rfl, rfl, rfl, rfl⟩
  exact (if_pos rfl).trans (congrArg (4096 * · + 4095) (limit_parts limit))

theorem get_assign_two {f g h : BitField} {v w : Nat} (data : Nat) (hf : f.Apart h) (hg : g.Apart h) :
    BitField.get (BitField.assign data [(f, v), (g, w)]) h = BitField.get data h :=
  (BitField.get_set_of_apart hg).trans (BitField.get_set_of_apart hf)

open SegmentDescriptor in
/-- The other flags of a code segment stay. -/
theorem segmentView_data (t : DescriptorType) (dpl base limit : Nat) :
    segmentView (setDataSegment t dpl base limit) =
      ⟨base % 2 ^ 32, 4096 * (limit % 2 ^ 20) + 4095, t.value, 1, dpl % 4, 1, 0, 1⟩ := by
  have hcode := segmentView_code t dpl base limit
  unfold setDataSegment
  generalize setCodeSegment t dpl base limit = data at hcode ⊢
  unfold segmentView at hcode ⊢
  rw [SegmentView.mk.injEq] at hcode ⊢
  have hkept (f : BitField) (hlong : longMode.Apart f) (hsize : defaultOperationSize.Apart f) :=
    get_assign_two (v := 0) (w := 1) data hlong hsize
  rw [hkept baseLow (by decide) (by decide), hkept baseMiddle (by decide) (by decide),
    hkept baseHigh (by decide) (by decide), hkept limitLow (by decide) (by decide),
    hkept limitHigh (by decide) (by decide), hkept granularity (by decide) (by decide),
    hkept type (by decide) (by decide), hkept systemSegment (by decide) (by decide),
    hkept descriptorPrivilegeLevel (by decide) (by decide), hkept present (by decide) (by decide)]
  obtain ⟨hbase, hlimit, htype, hsystem, hdpl, hpresent, -, -⟩ := hcode
  have hlong : BitField.get (BitField.assign data [(longMode, 0), (defaultOperationSize, 1)]) longMode = 0 :=
    BitField.get_assign (by decide) List.mem_cons_self
  have hbig : BitField.get (BitField.assign data [(longMode, 0), (defaultOperationSize, 1)]) defaultOperationSize = 1 :=
    BitField.get_assign (by decide) (List.mem_cons_of_mem _ List.mem_cons_self)
  exact ⟨hbase, hlimit, htype, hsystem, hdpl, hpresent, hlong, hbig⟩

open SegmentDescriptor in
/-- The limit still counts pages. -/
theorem segmentView_system (t : DescriptorType) (dpl base limit : Nat) :
    segmentView (setSystemSegment t dpl base limit) =
      ⟨base % 2 ^ 32, 4096 * (limit % 2 ^ 20) + 4095, t.value, 0, dpl % 4, 1, 0, 0⟩ := by
  have hcode := segmentView_code t dpl base limit
  unfold setSystemSegment
  generalize setCodeSegment t dpl base limit = data at hcode ⊢
  unfold segmentView at hcode ⊢
  rw [SegmentView.mk.injEq] at hcode ⊢
  have hkept (f : BitField) (hsystem : systemSegment.Apart f) (hlong : longMode.Apart f) :=
    get_assign_two (v := 0) (w := 0) data hsystem hlong
  rw [hkept baseLow (by decide) (by decide), hkept baseMiddle (by decide) (by decide),
    hkept baseHigh (by decide) (by decide), hkept limitLow (by decide) (by decide),
    hkept limitHigh (by decide) (by decide), hkept granularity (by decide) (by decide),
    hkept type (by decide) (by decide), hkept defaultOperationSize (by decide) (by decide),
    hkept descriptorPrivilegeLevel (by decide) (by decide), hkept present (by decide) (by decide)]
  obtain ⟨hbase, hlimit, htype, -, hdpl, hpresent, -, hbig⟩ := hcode
  have hsystem : BitField.get (BitField.assign data [(systemSegment, 0), (longMode, 0)]) systemSegment = 0 :=
    BitField.get_assign (by decide) List.mem_cons_self
  have hlong : BitField.get (BitField.assign data [(systemSegment, 0), (longMode, 0)]) longMode = 0 :=
    BitField.get_assign (by decide) (List.mem_cons_of_mem _ List.mem_cons_self)
  exact ⟨hbase, hlimit, htype, hsystem, hdpl, hpresent, hlong, hbig⟩

open InterruptDescriptor in
theorem gateView_setIDTEntry (desc : Nat) (t : DescriptorType) (dpl offset selector stackTable : Nat)
    (isPresent : Bool) :
    gateView (setIDTEntry desc t dpl offset selector stackTable isPresent) =
      if isPresent then some ⟨offset % 2 ^ 64, selector % 2 ^ 16, stackTable % 8, t.value, dpl % 4⟩ else none := by
  have ht : t.value % 2 ^ 4 = t.value := by cases t <;> rfl
  have hfield : ∀ i f v, (gateFields t dpl offset selector stackTable isPresent)[i]? = some (f, v) →
      BitField.get (setIDTEntry desc t dpl offset selector stackTable isPresent) f = v % 2 ^ f.width :=
    fun i f v h => get_setIDTEntry desc (List.mem_of_getElem? h)
  unfold gateView
  rw [hfield 0 interruptStackTable _ rfl, hfield 1 type _ rfl, hfield 2 descriptorPrivilegeLevel _ rfl,
    hfield 3 present _ rfl, hfield 4 offsetLow _ rfl, hfield 5 offsetMiddle _ rfl, hfield 6 offsetHigh _ rfl,
    hfield 7 segmentSelector _ rfl]
  cases isPresent with
  | false => rfl
  | true =>
    refine (if_neg (by decide)).trans (congrArg some ?_)
    rw [GateView.mk.injEq]
    exact ⟨offset_parts offset, rfl, rfl, ht, rfl⟩

end Views

/-! ## The tables after they have been set up -/

/-- Where an interrupt goes. -/
structure InterruptEntry where
  handler : Nat
  code : SegmentView
  /-- The end of the stack, when the gate names one -/
  stack : Option Nat
  deriving DecidableEq, Repr

/-- The way from a vector through the IDT, the GDT and the TSS. -/
def interruptEntry (s : Segmentation) (idt : Nat → Nat) (v : Nat) : Option InterruptEntry :=
  (gateView (idt v)).map fun gate => {
    handler := gate.offset
    code := segmentView (s.gdt (gate.selector >>> 3))
    stack := if gate.stackTable = 0 then none else some (s.ist gate.stackTable) }

section Tables

variable {entries : List (Nat × Nat)} {idt : Nat → Nat} {v stackTable : Nat}

theorem foldl_update_of_notMem (write : Nat → Nat × Nat → Nat) (hv : v ∉ entries.map Prod.fst) :
    entries.foldl (fun idt entry => Function.update idt entry.1 (write (idt entry.1) entry)) idt v = idt v := by
  induction entries generalizing idt with
  | nil => rfl
  | cons entry entries ih =>
    rw [List.map_cons, List.mem_cons, not_or] at hv
    rw [List.foldl_cons, ih hv.2]
    exact Function.update_of_ne hv.1 _ _

/-- An entry that is set once holds what was written to it. -/
theorem foldl_update_of_mem (write : Nat → Nat × Nat → Nat) (hnodup : (entries.map Prod.fst).Nodup)
    (hv : (v, stackTable) ∈ entries) :
    entries.foldl (fun idt entry => Function.update idt entry.1 (write (idt entry.1) entry)) idt v =
      write (idt v) (v, stackTable) := by
  induction entries generalizing idt with
  | nil => exact absurd hv List.not_mem_nil
  | cons entry entries ih =>
    rw [List.map_cons, List.nodup_cons] at hnodup
    rw [List.foldl_cons]
    rcases List.mem_cons.mp hv with rfl | hmem
    · rw [foldl_update_of_notMem write hnodup.1]
      exact Function.update_self _ _ _
    · have hne : v ≠ entry.1 := by
        rintro rfl
        exact hnodup.1 (List.mem_map.mpr ⟨_, hmem, rfl⟩)
      rw [ih hnodup.2 hmem, Function.update_of_ne hne]

theorem idtEntries_nodup : (idtEntries.map Prod.fst).Nodup := by decide

theorem idtEntries_stack : ∀ entry ∈ idtEntries,
    entry.2 = if entry.1 = kLAPICTimer then kISTForTimer else 0 := by decide

/-- At each of its vectors the IDT gives the address of the handler, all 64 bits of it; at the others it gives
nothing. -/
theorem gateView_initializeInterrupt (handler : Nat → Nat) (v : Nat) :
    gateView (initializeInterrupt handler (fun _ => 0) v) =
      if v ∈ idtEntries.map Prod.fst then
        some ⟨handler v % 2 ^ 64, Assembly.kKernelCS.toNat, if v = kLAPICTimer then kISTForTimer else 0, 14, 0⟩
      else none := by
  let write (desc : Nat) (entry : Nat × Nat) :=
    setIDTEntry desc .kInterruptGate 0 (handler entry.1) Assembly.kKernelCS.toNat entry.2 true
  by_cases hv : v ∈ idtEntries.map Prod.fst
  · obtain ⟨⟨w, stackTable⟩, hmem, rfl⟩ := List.mem_map.mp hv
    have hset : initializeInterrupt handler (fun _ => 0) w = write 0 (w, stackTable) :=
      foldl_update_of_mem write idtEntries_nodup hmem
    have hstack : stackTable = if w = kLAPICTimer then kISTForTimer else 0 := idtEntries_stack _ hmem
    rw [if_pos hv, hset, ← hstack]
    have hlt : stackTable % 8 = stackTable := by
      rw [hstack]
      split <;> rfl
    refine (gateView_setIDTEntry 0 .kInterruptGate 0 (handler w) Assembly.kKernelCS.toNat stackTable true).trans ?_
    rw [if_pos rfl, hlt]
    rfl
  · have hkept : initializeInterrupt handler (fun _ => 0) v = 0 := foldl_update_of_notMem write hv
    rw [if_neg hv, hkept]
    rfl

end Tables

namespace Segmentation

variable (s : Segmentation) (stack0 stack1 tssAddr : Nat)

theorem qword_parts (value : Nat) : (value &&& 0xffffffff) + 2 ^ 32 * (value >>> 32) = value := by
  have hlow := Nat.and_two_pow_sub_one_eq_mod value 32
  rw [Nat.shiftRight_eq_div_pow]
  simp only [Nat.reducePow, Nat.reduceSub] at hlow ⊢
  omega

@[simp] theorem rsp0_initializeTSS : (s.initializeTSS stack0 stack1 tssAddr).rsp0 = stack0 := qword_parts stack0

@[simp] theorem ist_initializeTSS : (s.initializeTSS stack0 stack1 tssAddr).ist kISTForTimer = stack1 :=
  qword_parts stack1

/-- The descriptor of 16 bytes gives the whole address of the TSS. -/
theorem systemBase_initializeTSS (h : tssAddr < 2 ^ 64) :
    (s.initializeTSS stack0 stack1 tssAddr).systemBase kTSS = tssAddr := by
  have hbase : (segmentView ((s.initializeTSS stack0 stack1 tssAddr).gdt (kTSS >>> 3))).base =
      (tssAddr &&& 0xffffffff) % 2 ^ 32 :=
    congrArg SegmentView.base (segmentView_system .kTSSAvailable 0 (tssAddr &&& 0xffffffff) (26 * 4 - 1))
  have hhigh : (s.initializeTSS stack0 stack1 tssAddr).gdt ((kTSS >>> 3) + 1) = tssAddr >>> 32 := rfl
  unfold systemBase
  rw [hbase, hhigh]
  have hparts := qword_parts tssAddr
  have hlow := mask_mod tssAddr 32
  rw [Nat.shiftRight_eq_div_pow] at hparts ⊢
  simp only [Nat.reducePow, Nat.reduceSub] at hparts hlow h ⊢
  omega

end Segmentation

/-- Code and data of the kernel, and data and code of the applications. -/
theorem segments_view (s : Segmentation) (stack0 stack1 tssAddr : Nat) :
    [1, 2, 3, 4].map (fun i => segmentView ((s.setupSegments.initializeTSS stack0 stack1 tssAddr).gdt i)) = [
      ⟨0, 2 ^ 32 - 1, 10, 1, 0, 1, 1, 0⟩,
      ⟨0, 2 ^ 32 - 1, 2, 1, 0, 1, 0, 1⟩,
      ⟨0, 2 ^ 32 - 1, 2, 1, 3, 1, 0, 1⟩,
      ⟨0, 2 ^ 32 - 1, 10, 1, 3, 1, 1, 0⟩] := by
  have hkernelCode := segmentView_code .kExecuteRead 0 0 0xfffff
  have hkernelData := segmentView_data .kReadWrite 0 0 0xfffff
  have happData := segmentView_data .kReadWrite 3 0 0xfffff
  have happCode := segmentView_code .kExecuteRead 3 0 0xfffff
  show [segmentView (setCodeSegment .kExecuteRead 0 0 0xfffff), segmentView (setDataSegment .kReadWrite 0 0 0xfffff),
    segmentView (setDataSegment .kReadWrite 3 0 0xfffff), segmentView (setCodeSegment .kExecuteRead 3 0 0xfffff)] = _
  rw [hkernelCode, hkernelData, happData, happCode]
  rfl

/-- **Interrupts.**  After `SetupSegments`, `InitializeTSS` and `InitializeInterrupt` an interrupt of a vector with a
handler goes to it in the 64-bit code segment of the kernel; the one of the timer has the second stack to itself, and
the others have no stack of their own.  The selector `kTSS` gives the whole address of the TSS, where the processor
finds the first stack for the interrupts of an application. -/
theorem interrupt_entered (s : Segmentation) (handler : Nat → Nat) (stack0 stack1 tssAddr : Fin (2 ^ 64))
    (v : Nat) :
    interruptEntry (s.setupSegments.initializeTSS stack0 stack1 tssAddr) (initializeInterrupt handler (fun _ => 0)) v =
      (if v ∈ idtEntries.map Prod.fst then
        some ⟨handler v % 2 ^ 64, ⟨0, 2 ^ 32 - 1, 10, 1, 0, 1, 1, 0⟩, if v = kLAPICTimer then some stack1.val else none⟩
      else none) ∧
    (s.setupSegments.initializeTSS stack0 stack1 tssAddr).systemBase kTSS = tssAddr ∧
    (s.setupSegments.initializeTSS stack0 stack1 tssAddr).rsp0 = stack0 := by
  refine ⟨?_, Segmentation.systemBase_initializeTSS _ _ _ _ tssAddr.isLt, Segmentation.rsp0_initializeTSS _ _ _ _⟩
  unfold interruptEntry
  rw [gateView_initializeInterrupt]
  by_cases hv : v ∈ idtEntries.map Prod.fst
  · have hcode : segmentView
        ((s.setupSegments.initializeTSS stack0 stack1 tssAddr).gdt (Assembly.kKernelCS.toNat >>> 3)) =
          ⟨0, 2 ^ 32 - 1, 10, 1, 0, 1, 1, 0⟩ := (List.cons.inj (segments_view s stack0 stack1 tssAddr)).1
    rw [if_pos hv, if_pos hv, Option.map_some, hcode]
    by_cases htimer : v = kLAPICTimer
    · simp only [if_pos htimer, Segmentation.ist_initializeTSS, if_neg (show ¬ kISTForTimer = 0 by decide)]
    · simp only [if_neg htimer, if_pos]
  · rw [if_neg hv, if_neg hv]
    rfl

end MikanSaos
