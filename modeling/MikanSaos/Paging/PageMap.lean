import MikanSaos.Paging.Machine

/-!
# PageMap — setting up, copying and cleaning page maps

The loops over the entries of one page map get the call for the page map below as a function, so that
the recursion is on the level of the page map alone.
-/

namespace MikanSaos

open LinearAddress4Level

namespace Machine

def setNewPageMapIfNotPresent (m : Machine) (table i : Nat) : WithError Nat × Machine :=
  let entry := m.tables table i
  if entry.present then (⟨entry.addr, .kSuccess⟩, m)
  else
    let (childMap, m) := m.newPageMap
    if childMap.error ≠ .kSuccess then (⟨0, childMap.error⟩, m)
    else
      (⟨childMap.value, .kSuccess⟩, m.setEntry table i
        { (m.tables table i).setPointer childMap.value with present := true })

/-! ## `SetupPageMap` -/

/-- One round of the loop: make the entry, and what is below it. -/
def setupEntry (below : Machine → (pageMap addr num4kpages : Nat) → WithError Nat × Machine)
    (level : Nat) (writable : Bool) (m : Machine) (pageMap addr num4kpages : Nat) :
    WithError Nat × Machine :=
  let entryIndex := part addr level
  let (childMap, m) := m.setNewPageMapIfNotPresent pageMap entryIndex
  if childMap.error ≠ .kSuccess then (⟨num4kpages, childMap.error⟩, m)
  else
    let entry := { m.tables pageMap entryIndex with user := true }
    if level = 1 then
      (⟨num4kpages - 1, .kSuccess⟩,
        m.setEntry pageMap entryIndex { entry with writable := writable })
    else
      let (numRemainPages, m) := below (m.setEntry pageMap entryIndex { entry with writable := true })
        childMap.value addr num4kpages
      if numRemainPages.error ≠ .kSuccess then (⟨num4kpages, numRemainPages.error⟩, m)
      else (numRemainPages, m)

/-- The `while` loop; it ends at entry 511 at the latest. -/
def setupEntries (below : Machine → (pageMap addr num4kpages : Nat) → WithError Nat × Machine)
    (level : Nat) (writable : Bool) : Nat → Machine → (pageMap addr num4kpages : Nat) →
    WithError Nat × Machine
  | 0, m, _, _, num4kpages => (⟨num4kpages, .kSuccess⟩, m)
  | fuel + 1, m, pageMap, addr, num4kpages =>
    if 0 < num4kpages then
      let entryIndex := part addr level
      let (num4kpages, m) := setupEntry below level writable m pageMap addr num4kpages
      if num4kpages.error ≠ .kSuccess then (num4kpages, m)
      else if entryIndex = 511 then (num4kpages, m)
      else
        setupEntries below level writable fuel m pageMap
          (clearParts (setPart addr level (entryIndex + 1)) (level - 1)) num4kpages.value
    else (⟨num4kpages, .kSuccess⟩, m)

def setupPageMap (writable : Bool) : (level : Nat) → Machine → (pageMap addr num4kpages : Nat) →
    WithError Nat × Machine
  | 0, m, _, _, num4kpages => (⟨num4kpages, .kSuccess⟩, m)
  | level + 1, m, pageMap, addr, num4kpages =>
    setupEntries (setupPageMap writable level) (level + 1) writable 512 m pageMap addr num4kpages

def setupPageMaps (m : Machine) (cr3 addr num4kpages : Nat) (writable : Bool := true) :
    Error × Machine :=
  let (r, m) := setupPageMap writable 4 m cr3 addr num4kpages
  (r.error, m)

/-! ## `CleanPageMap` and `CopyPageMaps` -/

/-- The last `n` entries of a page map, in order, until there is an error. -/
def forEntries (body : Machine → Nat → Error × Machine) : Nat → Machine → Error × Machine
  | 0, m => (.kSuccess, m)
  | n + 1, m =>
    let (err, m) := body m (512 - (n + 1))
    if err ≠ .kSuccess then (err, m) else forEntries body n m

def cleanEntry (below : Machine → Nat → Error × Machine) (cleanReadonly : Bool) (pageMap : Nat)
    (m : Machine) (i : Nat) : Error × Machine :=
  let entry := m.tables pageMap i
  if ¬ entry.present then (.kSuccess, m)
  else
    let (err, m) := below m entry.addr
    if err ≠ .kSuccess then (err, m)
    else
      let (err, m) := if entry.writable ∨ cleanReadonly then m.freeFrame entry.addr else (.kSuccess, m)
      if err ≠ .kSuccess then (err, m) else (.kSuccess, m.setEntry pageMap i {})

/-- `clean_readonly` is not passed on to the page maps below. -/
def cleanPageMap : (level : Nat) → (addr : Nat) → (cleanReadonly : Bool) → Machine →
    (pageMap : Nat) → Error × Machine
  | 0, _, _, m, _ => (.kSuccess, m)
  | level + 1, addr, cleanReadonly, m, pageMap =>
    forEntries (cleanEntry (cleanPageMap level addr false) cleanReadonly pageMap)
      (512 - part addr (level + 1)) m

def cleanPageMaps (m : Machine) (cr3 addr : Nat) : Error × Machine := cleanPageMap 4 addr false m cr3

def cleanPageMapsForMeta (m : Machine) (pml4Table : Nat) : Error × Machine :=
  let (err, m) := cleanPageMap 4 kUpperHalf true m pml4Table
  if err ≠ .kSuccess then (err, m) else m.freePageMap pml4Table

def copyEntry (below : Machine → (dest src : Nat) → Error × Machine) (part dest src : Nat)
    (m : Machine) (i : Nat) : Error × Machine :=
  let entry := m.tables src i
  if ¬ entry.present then (.kSuccess, m)
  else if part = 1 then (.kSuccess, m.setEntry dest i { entry with writable := false })
  else
    let (table, m) := m.newPageMap
    if table.error ≠ .kSuccess then (table.error, m)
    else
      let m := m.setEntry dest i ((m.tables src i).setPointer table.value)
      below m table.value (m.tables src i).addr

def copyPageMaps : (part : Nat) → (start : Nat) → Machine → (dest src : Nat) → Error × Machine
  | 0, _, m, _, _ => (.kSuccess, m)
  | part + 1, start, m, dest, src =>
    forEntries (copyEntry (copyPageMaps part 0) (part + 1) dest src) (512 - start) m

/-! ## `CopyOnePage` -/

def setPageContent : (part : Nat) → Machine → (table addr content : Nat) → Machine
  | 0, m, _, _, _ => m
  | 1, m, table, addr, content =>
    let i := part addr 1
    m.setEntry table i { (m.tables table i).setPointer content with writable := true }
  | n + 2, m, table, addr, content =>
    setPageContent (n + 1) m (m.tables table (part addr (n + 2))).addr addr content

def copyOnePage (m : Machine) (cr3 causalAddr : Nat) : Error × Machine :=
  let (p, m) := m.newPageMap
  if p.error ≠ .kSuccess then (p.error, m)
  else
    let alignedAddr := causalAddr - causalAddr % 4096
    let m := { m with bytes := Function.update m.bytes p.value fun k =>
      if k < 4096 then (m.loadByte cr3 (alignedAddr + k)).getD 0 else m.bytes p.value k }
    (.kSuccess, setPageContent 4 m cr3 causalAddr p.value)

end Machine

end MikanSaos
