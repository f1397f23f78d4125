import MikanSaos.Memory.BitmapMemoryManager

/-!
# Machine — linear addresses, page-map entries and the frames behind them

Physical memory is kept in two parts: `tables` holds the entries of the frames that are used as page
maps, `bytes` the contents of all others.  A `PageMapEntry*` is the number of its frame.  Addresses are
64-bit numbers, and the lower half is mapped to physical memory one to one.
-/

namespace MikanSaos

/-- The first address of the upper half. -/
def kUpperHalf : Nat := 0xffff800000000000

/-! ## Linear addresses -/

namespace LinearAddress4Level

def part (value level : Nat) : Nat :=
  match level with
  | 0 => value % 2 ^ 12
  | 1 => value / 2 ^ 12 % 512
  | 2 => value / 2 ^ 21 % 512
  | 3 => value / 2 ^ 30 % 512
  | 4 => value / 2 ^ 39 % 512
  | _ => 0

def setPart (value level part : Nat) : Nat :=
  match level with
  | 0 => value - value % 2 ^ 12 + part % 2 ^ 12
  | 1 => value - value / 2 ^ 12 % 512 * 2 ^ 12 + part % 512 * 2 ^ 12
  | 2 => value - value / 2 ^ 21 % 512 * 2 ^ 21 + part % 512 * 2 ^ 21
  | 3 => value - value / 2 ^ 30 % 512 * 2 ^ 30 + part % 512 * 2 ^ 30
  | 4 => value - value / 2 ^ 39 % 512 * 2 ^ 39 + part % 512 * 2 ^ 39
  | _ => value

/-- The inner loop of `SetupPageMap`: set the parts from `level` down to 1 to zero. -/
def clearParts (value : Nat) : Nat → Nat
  | 0 => value
  | level + 1 => clearParts (setPart value (level + 1) 0) level

end LinearAddress4Level

/-! ## Page-map entries -/

/-- The bit fields of a `PageMapEntry`; `addr` is the number of the frame it points to. -/
structure PageMapEntry where
  present : Bool := false
  writable : Bool := false
  user : Bool := false
  hugePage : Bool := false
  addr : Nat := 0
  deriving DecidableEq, Repr

namespace PageMapEntry

def setPointer (e : PageMapEntry) (frame : Nat) : PageMapEntry := { e with addr := frame % 2 ^ 40 }

/-- The page map or page that a present entry refers to. -/
def target (e : PageMapEntry) : Option Nat := if e.present then some e.addr else none

end PageMapEntry

/-! ## The machine -/

structure Machine where
  mm : BitmapMemoryManager
  tables : Nat → Nat → PageMapEntry
  bytes : Nat → Nat → UInt8
  /-- Not in the source: the frames that were freed while they were not allocated. -/
  doubleFreed : List Nat

namespace Machine

def setEntry (m : Machine) (table i : Nat) (e : PageMapEntry) : Machine :=
  { m with tables := Function.update m.tables table (Function.update (m.tables table) i e) }

def setByte (m : Machine) (frame offset : Nat) (byte : UInt8) : Machine :=
  { m with bytes := Function.update m.bytes frame (Function.update (m.bytes frame) offset byte) }

/-- `memset(e, 0, sizeof(uint64_t) * 512)` -/
def clearFrame (m : Machine) (frame : Nat) : Machine :=
  { m with tables := Function.update m.tables frame fun _ => {},
           bytes := Function.update m.bytes frame fun _ => 0 }

def newPageMap (m : Machine) : WithError Nat × Machine :=
  let (frame, mm) := m.mm.allocate 1
  if frame.error ≠ .kSuccess then (⟨0, frame.error⟩, { m with mm := mm })
  else (⟨frame.value, .kSuccess⟩, { m with mm := mm }.clearFrame frame.value)

/-- `memory_manager->Free(frame, 1)` -/
def freeFrame (m : Machine) (frame : Nat) : Error × Machine :=
  let (err, mm) := m.mm.free frame 1
  (err, { m with mm := mm,
                 doubleFreed := if m.mm.getBit frame then m.doubleFreed
                   else frame :: m.doubleFreed })

def freePageMap (m : Machine) (table : Nat) : Error × Machine := m.freeFrame table

/-- The walk of the processor: the entry that maps the page of `vaddr`, with the rights of all levels,
and the frame.  A large page is an entry of level 2. -/
def walk (m : Machine) (cr3 vaddr : Nat) : Option PageMapEntry :=
  let e4 := m.tables cr3 (LinearAddress4Level.part vaddr 4)
  let e3 := m.tables e4.addr (LinearAddress4Level.part vaddr 3)
  let e2 := m.tables e3.addr (LinearAddress4Level.part vaddr 2)
  let e1 := m.tables e2.addr (LinearAddress4Level.part vaddr 1)
  if e4.present ∧ e3.present ∧ e2.present then
    if e2.hugePage then
      some { e2 with
        writable := e4.writable && e3.writable && e2.writable
        user := e4.user && e3.user && e2.user
        addr := e2.addr + LinearAddress4Level.part vaddr 1 }
    else if e1.present then
      some { e1 with
        writable := e4.writable && e3.writable && e2.writable && e1.writable
        user := e4.user && e3.user && e2.user && e1.user }
    else none
  else none

/-- A read of the kernel. -/
def loadByte (m : Machine) (cr3 vaddr : Nat) : Option UInt8 :=
  (m.walk cr3 vaddr).map fun e => m.bytes e.addr (LinearAddress4Level.part vaddr 0)

/-- A store of the kernel: `CR0.WP` is clear, so that the rights do not count. -/
def storeByte (m : Machine) (cr3 vaddr : Nat) (byte : UInt8) : Machine :=
  match m.walk cr3 vaddr with
  | some e => m.setByte e.addr (LinearAddress4Level.part vaddr 0) byte
  | none => m

/-- `memcpy` of `n` bytes to `dst`; addresses wrap. -/
def storeBytes (m : Machine) (cr3 dst : Nat) (src : Nat → UInt8) : Nat → Machine
  | 0 => m
  | n + 1 => (storeBytes m cr3 dst src n).storeByte cr3 ((dst + n) % 2 ^ 64) (src n)

end Machine

end MikanSaos
