import Mathlib.Algebra.Order.Ring.Nat
import Mathlib.Data.Fin.VecNotation
import Mathlib.Data.List.FinRange
import Mathlib.Logic.Function.Basic

/-!
# Ring — the memory pool of the USB driver and its command and transfer rings

A ring is an array of TRBs that the driver fills and the controller reads.  The last slot belongs to the
driver: each time the index gets there, `Push` stores a Link TRB back to the first slot.
-/

namespace MikanSaos

/-! ## Memory of the driver -/

def kMemoryPollSize : Nat := 4096 * 32

/-- The static pool and the first byte not handed out yet. -/
structure MemoryPool where
  memoryPool : Nat
  allocPtr : Nat
  inSpace : memoryPool + kMemoryPollSize ≤ 2 ^ 64

/-- For a power of two, the mask of the source rounds down to a multiple. -/
def align (value alignment : Nat) : Nat := (value + alignment - 1) / alignment * alignment

namespace MemoryPool

/-- Where the next block begins. -/
def place (p : MemoryPool) (size alignment boundary : Nat) : Nat :=
  let allocPtr := if 0 < alignment then align p.allocPtr alignment else p.allocPtr
  if 0 < boundary ∧ allocPtr + size > align allocPtr boundary then align allocPtr boundary else allocPtr

/-- A failed call leaves the pointer where the alignment has moved it. -/
def allocMem (p : MemoryPool) (size alignment boundary : Nat) : Option Nat × MemoryPool :=
  let allocPtr := p.place size alignment boundary
  if allocPtr + size > p.memoryPool + kMemoryPollSize then (none, { p with allocPtr := allocPtr })
  else (some allocPtr, { p with allocPtr := allocPtr + size })

theorem dvd_place {p : MemoryPool} {size alignment boundary : Nat} (halign : 0 < alignment)
    (hboundary : alignment ∣ boundary) : alignment ∣ p.place size alignment boundary := by
  rw [place, if_pos halign]
  split
  · exact Nat.dvd_trans hboundary (Nat.dvd_mul_left ..)
  · exact Nat.dvd_mul_left ..

/-- An allocated block is aligned and lies in the pool. -/
theorem allocMem_some {p : MemoryPool} {size alignment boundary addr : Nat}
    (h : (p.allocMem size alignment boundary).1 = some addr) (halign : 0 < alignment)
    (hboundary : alignment ∣ boundary) :
    alignment ∣ addr ∧ addr + size ≤ 2 ^ 64 := by
  simp only [allocMem] at h
  split at h
  · simp at h
  · rename_i hfits
    have haddr : p.place size alignment boundary = addr := Option.some.inj h
    rw [haddr] at hfits
    have hspace := p.inSpace
    exact ⟨haddr ▸ dvd_place halign hboundary, by omega⟩

end MemoryPool

/-! ## TRBs -/

/-- The four words of a transfer request block. -/
abbrev TRB := Fin 4 → BitVec 32

namespace TRB

/-- The cycle bit, the flags and the type. -/
def lastWord (trb : TRB) : BitVec 32 := trb 3

def cycleBit (trb : TRB) : Bool := (trb 3).getLsbD 0
def toggleCycle (trb : TRB) : Bool := (trb 3).getLsbD 1
def trbType (trb : TRB) : BitVec 6 := (trb 3).extractLsb' 10 6

/-- `LinkTRB::Pointer`: the lowest four bits of the address are not stored. -/
def pointer (trb : TRB) : Nat := ((trb 1).toNat * 2 ^ 32 + (trb 0).toNat) / 16 * 16

/-- A TRB as `Push` stores it: with the ring's cycle bit instead of its own. -/
def mark (trb : TRB) (cycle : BitVec 8) : TRB :=
  Function.update trb 3 ((trb 3 &&& 0xfffffffe) ||| cycle.setWidth 32)

/-- All that a TRB says: its words without the cycle bit. -/
def payload (trb : TRB) : TRB := Function.update trb 3 (trb 3 &&& 0xfffffffe)

end TRB

def LinkTRB.Type : BitVec 32 := 6

/-- `LinkTRB{p}` with `toggle_cycle` set. -/
def linkTRB (p : Nat) : TRB :=
  ![BitVec.ofNat 32 (p / 16 * 16), BitVec.ofNat 32 (p / 2 ^ 32), 0, (LinkTRB.Type <<< 10) ||| (1 <<< 1)]

/-! ## TRBs of a transfer -/

structure SetupData where
  requestType : BitVec 8
  request : BitVec 8
  value : BitVec 16
  index : BitVec 16
  length : BitVec 16
  deriving DecidableEq

structure EndpointID where
  dci : Int
  deriving DecidableEq

def EndpointID.number (ep : EndpointID) : Int := ep.dci >>> (1 : Nat)

def NormalTRB.Type : BitVec 6 := 1
def SetupStageTRB.Type : BitVec 6 := 2
def DataStageTRB.Type : BitVec 6 := 3
def StatusStageTRB.Type : BitVec 6 := 4

def SetupStageTRB.kNoDataStage : BitVec 2 := 0
def SetupStageTRB.kInDataStage : BitVec 2 := 3

/-- The fields of the last word, from the highest: the transfer type, the type of the TRB and the flag for
immediate data. -/
def setupStageTRB (setupData : SetupData) (transferType : BitVec 2) : TRB :=
  ![setupData.value ++ setupData.request ++ setupData.requestType, setupData.length ++ setupData.index, 8,
    0#14 ++ transferType ++ SetupStageTRB.Type ++ 0#3 ++ 1#1 ++ 0#1 ++ 0#4 ++ 0#1]

/-- Directed in, with an interrupt on completion. -/
def dataStageTRB (buf : BitVec 64) (len : Int) : TRB :=
  ![buf.extractLsb' 0 32, buf.extractLsb' 32 32, 0#10 ++ 0#5 ++ BitVec.ofInt 17 len,
    0#15 ++ 1#1 ++ DataStageTRB.Type ++ 0#3 ++ 0#1 ++ 1#1 ++ 0#5]

def statusStageTRB (direction interruptOnCompletion : BitVec 1) : TRB :=
  ![0, 0, 0, 0#15 ++ direction ++ StatusStageTRB.Type ++ 0#4 ++ interruptOnCompletion ++ 0#5]

namespace TRB

/-- The fields of a Setup Stage TRB. -/
def setupData (trb : TRB) : SetupData :=
  ⟨(trb 0).extractLsb' 0 8, (trb 0).extractLsb' 8 8, (trb 0).extractLsb' 16 16, (trb 1).extractLsb' 0 16,
    (trb 1).extractLsb' 16 16⟩

/-- `data_buffer_pointer` of a Normal or Data Stage TRB. -/
def dataBufferPointer (trb : TRB) : BitVec 64 := trb 1 ++ trb 0

/-- `trb_transfer_length` of a Normal or Data Stage TRB. -/
def transferLength (trb : TRB) : BitVec 17 := (trb 2).extractLsb' 0 17

/-! The fields of a Transfer Event TRB. -/

def eventPointer (trb : TRB) : Nat := (trb 1 ++ trb 0).toNat
def eventTransferLength (trb : TRB) : BitVec 24 := (trb 2).extractLsb' 0 24
def completionCode (trb : TRB) : BitVec 8 := (trb 2).extractLsb' 24 8
def endpointID (trb : TRB) : EndpointID := ⟨((trb 3).extractLsb' 16 5).toNat⟩

end TRB

/-! ## Producer -/

/-- `buf` holds the slots of the array at the address `base`. -/
structure Ring where
  buf : Nat → TRB
  base : Nat
  bufSize : Nat
  cycleBit : BitVec 8
  writeIndex : Nat

namespace Ring

/-- `AllocArray` clears the slots. -/
def initializeRing (pool : MemoryPool) (bufSize : Nat) : Option Ring × MemoryPool :=
  let block := pool.allocMem (16 * bufSize) 64 (64 * 1024)
  (block.1.map fun base => ⟨fun _ _ => 0, base, bufSize, 1, 0⟩, block.2)

/-- Store word `i` of a TRB in the slot at the index. -/
def storeWord (r : Ring) (trb : TRB) (i : Fin 4) : Ring :=
  { r with
    buf := Function.update r.buf r.writeIndex
      (Function.update (r.buf r.writeIndex) i (trb.mark r.cycleBit i)) }

/-- The loop over the first three words and the store of the last one. -/
def storeTRB (r : Ring) (trb : TRB) : Ring := (List.finRange 4).foldl (fun r i => r.storeWord trb i) r

/-- The index goes on to the next slot. -/
def advance (r : Ring) : Ring := { r with writeIndex := r.writeIndex + 1 }

/-- After the Link TRB the next lap begins. -/
def wrap (r : Ring) : Ring := { r with writeIndex := 0, cycleBit := r.cycleBit ^^^ 1 }

/-- The address of the stored TRB is returned as well. -/
def push (r : Ring) (data : TRB) : Nat × Ring :=
  let trbPtr := r.base + 16 * r.writeIndex
  let r := (r.storeTRB data).advance
  if r.writeIndex = r.bufSize - 1 then (trbPtr, (r.storeTRB (linkTRB r.base)).wrap) else (trbPtr, r)

end Ring

/-- A new ring is aligned and lies in the address space. -/
theorem Ring.initializeRing_some {pool : MemoryPool} {bufSize : Nat} {r : Ring}
    (h : (Ring.initializeRing pool bufSize).1 = some r) :
    ∃ base, r = ⟨fun _ _ => 0, base, bufSize, 1, 0⟩ ∧ 16 ∣ base ∧ base + 16 * bufSize ≤ 2 ^ 64 := by
  obtain ⟨base, halloc, hring⟩ := Option.map_eq_some_iff.mp h
  have hblock := MemoryPool.allocMem_some halloc (by decide) (by decide)
  exact ⟨base, hring.symm, Nat.dvd_trans (by decide) hblock.1, hblock.2⟩

/-! ## What the fields of a TRB hold -/

namespace TRB

variable {trb : TRB} {cycle : BitVec 8}

theorem payload_mark (hcycle : cycle = 0 ∨ cycle = 1) : (trb.mark cycle).payload = trb.payload := by
  have hclear : cycle.setWidth 32 &&& 0xfffffffe = 0 := by
    rcases hcycle with rfl | rfl <;> decide
  simp only [payload, mark, Function.update_self, Function.update_idem]
  rw [BitVec.and_or_distrib_right, hclear, BitVec.and_assoc]
  simp

/-- Words other than the last are stored as they are. -/
theorem mark_of_ne {i : Fin 4} (hi : i ≠ 3) : trb.mark cycle i = trb.payload i := by
  rw [mark, payload, Function.update_of_ne hi, Function.update_of_ne hi]

theorem payload_update {i : Fin 4} (hi : i ≠ 3) (word : BitVec 32) :
    TRB.payload (Function.update trb i word) = Function.update trb.payload i word := by
  rw [payload, payload, Function.update_of_ne hi.symm, Function.update_comm hi]

@[simp] theorem payload_trbType : trb.payload.trbType = trb.trbType := by
  have hones : (0xfffffffe : BitVec 32).extractLsb' 10 6 = BitVec.allOnes 6 := by decide
  simp only [trbType, payload, Function.update_self]
  rw [BitVec.extractLsb'_and, hones, BitVec.and_allOnes]

@[simp] theorem payload_toggleCycle : trb.payload.toggleCycle = trb.toggleCycle := by
  show ((trb.payload) 3).getLsbD 1 = (trb 3).getLsbD 1
  simp [payload]

@[simp] theorem payload_pointer : trb.payload.pointer = trb.pointer := by
  simp [payload, pointer]

@[simp] theorem mark_cycleBit : (trb.mark cycle).cycleBit = cycle.getLsbD 0 := by
  simp [mark, cycleBit]

end TRB

theorem linkTRB_trbType (p : Nat) : (linkTRB p).trbType = 6 := by
  show ((LinkTRB.Type <<< 10) ||| (1 <<< 1) : BitVec 32).extractLsb' 10 6 = 6
  decide

theorem linkTRB_toggleCycle (p : Nat) : (linkTRB p).toggleCycle = true := by
  show ((LinkTRB.Type <<< 10) ||| (1 <<< 1) : BitVec 32).getLsbD 1 = true
  decide

theorem linkTRB_pointer {p : Nat} (halign : 16 ∣ p) (hp : p < 2 ^ 64) : (linkTRB p).pointer = p := by
  have h0 : (linkTRB p 0).toNat = p / 16 * 16 % 2 ^ 32 := BitVec.toNat_ofNat ..
  have h1 : (linkTRB p 1).toNat = p / 2 ^ 32 % 2 ^ 32 := BitVec.toNat_ofNat ..
  rw [TRB.pointer, h0, h1]
  omega

end MikanSaos
