import MikanSaos.Paging.PageMap
import MikanSaos.Reasoning.LittleEndian
import MikanSaos.Word64

/-!
# Elf — `LoadELF`

`file` is memory from the ELF header on: byte `k` is the byte at `ehdr + k`, also behind the end of the
file buffer, and addresses wrap.  The loader returns the accesses it made next to its result.
-/

open Reasoning

namespace MikanSaos

/-- A read of `n` bytes of `file`, or a write of `n` bytes to virtual memory. -/
inductive Access where
  | read (offset n : Nat)
  | write (vaddr n : Nat)
  deriving DecidableEq, Repr

namespace Elf

def etExec : Nat := 2
def ptLoad : Nat := 1

/-- `sizeof(Elf64_Phdr)` -/
def kPhdrBytes : Nat := 56

structure Elf64Phdr where
  pType : Nat
  pOffset : Nat
  pVaddr : Nat
  pFilesz : Nat
  pMemsz : Nat
  deriving DecidableEq, Repr

def field (file : Nat → UInt8) (offset n : Nat) : Nat :=
  readLE (fun a => file (a % 2 ^ 64)) offset n

def eType (file : Nat → UInt8) : Nat := field file 16 2
def eEntry (file : Nat → UInt8) : Nat := field file 24 8
def ePhoff (file : Nat → UInt8) : Nat := field file 32 8
def ePhnum (file : Nat → UInt8) : Nat := field file 56 2

/-- Where `phdr[i]` is. -/
def phdrOffset (file : Nat → UInt8) (i : Nat) : Nat := (ePhoff file + kPhdrBytes * i) % 2 ^ 64

def phdr (file : Nat → UInt8) (i : Nat) : Elf64Phdr :=
  let offset := phdrOffset file i
  ⟨field file offset 4, field file (offset + 8) 8, field file (offset + 16) 8,
    field file (offset + 32) 8, field file (offset + 40) 8⟩

/-- The number of program headers up to the first `PT_LOAD`, from header `i` on. -/
def firstLoad (file : Nat → UInt8) : (remaining i : Nat) → Option Nat
  | 0, _ => none
  | n + 1, i => if (phdr file i).pType ≠ ptLoad then firstLoad file n (i + 1) else some i

def getFirstLoadAddress (file : Nat → UInt8) : Nat :=
  match firstLoad file (ePhnum file) 0 with
  | some i => (phdr file i).pVaddr
  | none => 0

/-! ## The fields and the bytes that are accessed -/

def typeAccess (file : Nat → UInt8) (i : Nat) : Access := .read (phdrOffset file i) 4

/-- `p_vaddr` and `p_memsz`, which are read before the pages are set up. -/
def mapAccesses (file : Nat → UInt8) (i : Nat) : List Access :=
  [.read (phdrOffset file i + 16) 8, .read (phdrOffset file i + 40) 8]

/-- `p_offset` and `p_filesz`, and then `memcpy` and `memset`. -/
def copyAccesses (file : Nat → UInt8) (i : Nat) : List Access :=
  let ph := phdr file i
  [.read (phdrOffset file i + 8) 8, .read (phdrOffset file i + 32) 8,
    .read ph.pOffset ph.pFilesz, .write ph.pVaddr ph.pFilesz,
    .write (add64 ph.pVaddr ph.pFilesz) (sub64 ph.pMemsz ph.pFilesz)]

/-- The headers up to the first `PT_LOAD`, and its address. -/
def firstLoadAccesses (file : Nat → UInt8) : List Access :=
  match firstLoad file (ePhnum file) 0 with
  | some i => (List.range (i + 1)).map (typeAccess file) ++ [.read (phdrOffset file i + 16) 8]
  | none => (List.range (ePhnum file)).map (typeAccess file)

/-! ## The loader -/

/-- Map the pages of one segment and fill them. -/
def loadSegment (file : Nat → UInt8) (cr3 : Nat) (ph : Elf64Phdr) (m : Machine) : Error × Machine :=
  let num4kpages := add64 ph.pMemsz 4095 / 4096
  let (err, m) := m.setupPageMaps cr3 ph.pVaddr num4kpages false
  if err ≠ .kSuccess then (err, m)
  else
    let m := m.storeBytes cr3 ph.pVaddr (fun k => file ((ph.pOffset + k) % 2 ^ 64)) ph.pFilesz
    (.kSuccess, m.storeBytes cr3 (add64 ph.pVaddr ph.pFilesz) (fun _ => 0)
      (sub64 ph.pMemsz ph.pFilesz))

/-- The loop of `CopyLoadSegments`, for the last `n` program headers. -/
def copyLoadSegments (file : Nat → UInt8) (cr3 : Nat) : (n lastAddr : Nat) → Machine →
    WithError Nat × Machine × List Access
  | 0, lastAddr, m => (⟨lastAddr, .kSuccess⟩, m, [])
  | n + 1, lastAddr, m =>
    let i := ePhnum file - (n + 1)
    let ph := phdr file i
    if ph.pType ≠ ptLoad then
      let (r, m, log) := copyLoadSegments file cr3 n lastAddr m
      (r, m, typeAccess file i :: log)
    else
      let lastAddr := max lastAddr (add64 ph.pVaddr ph.pMemsz)
      let (err, m) := loadSegment file cr3 ph m
      if err ≠ .kSuccess then (⟨lastAddr, err⟩, m, typeAccess file i :: mapAccesses file i)
      else
        let (r, m, log) := copyLoadSegments file cr3 n lastAddr m
        (r, m, typeAccess file i :: (mapAccesses file i ++ copyAccesses file i) ++ log)

def loadElf (file : Nat → UInt8) (cr3 : Nat) (m : Machine) :
    WithError Nat × Machine × List Access :=
  if eType file ≠ etExec then (⟨0, .kInvalidFormat⟩, m, [.read 16 2])
  else
    let log := .read 16 2 :: .read 32 8 :: .read 56 2 :: firstLoadAccesses file
    if getFirstLoadAddress file < kUpperHalf then (⟨0, .kInvalidFormatLA⟩, m, log)
    else
      let (r, m, log') := copyLoadSegments file cr3 (ePhnum file) 0 m
      (r, m, log ++ log')

end Elf

end MikanSaos
