import MikanSaos.App.Elf

/-!
# Instances — `LoadApp`, `ExecuteFile` and the page faults of applications

A call of `ExecuteFile` is two steps, up to `CallApp` and from there on; between them the application
runs and other tasks run.  A `DirectoryEntry*` is a number, and a pointer into `app_loads` is the key.
-/

namespace MikanSaos

open LinearAddress4Level Machine

structure AppLoadInfo where
  vaddrEnd : Nat := 0
  entry : Nat := 0
  pml4 : Nat := 0
  prototype : Option Nat := none
  count : Nat := 0
  deriving DecidableEq, Repr

structure FileMapping where
  fd : Int
  vaddrBegin : Nat
  vaddrEnd : Nat
  deriving DecidableEq, Repr

/-- The part of a `Task` that has to do with its application.  `files` is the contents behind its open file
descriptors, and `app` is the call of `ExecuteFile` that is in `CallApp`. -/
structure AppTask where
  cr3 : Nat
  dpagingBegin : Nat := 0
  dpagingEnd : Nat := 0
  fileMapEnd : Nat := 0
  fileMaps : List FileMapping := []
  files : Nat → Option (List UInt8) := fun _ => none
  app : Option (Nat × AppLoadInfo) := none

structure System where
  machine : Machine
  /-- `pml4_table` -/
  kernelPml4 : Nat
  tasks : Nat → AppTask
  appLoads : Nat → Option AppLoadInfo

/-- What `fd` stands for, if it is open. -/
def AppTask.file (t : AppTask) (fd : Int) : Option (List UInt8) := if fd < 0 then none else t.files fd.toNat

/-- `0xffff'ffff'ffff'f000` -/
def kArgsFrameAddr : Nat := 0xfffffffffffff000

def kUserStackSize : Nat := 16 * 4096

def kStackFrameAddr : Nat := kArgsFrameAddr - kUserStackSize

/-! ## The new page map of a task -/

namespace Machine

/-- `SetupPML4` up to the new `CR3`: the lower half is that of the current page map. -/
def setupPml4 (m : Machine) (currentPml4 : Nat) : WithError Nat × Machine :=
  let (pml4, m) := m.newPageMap
  if pml4.error ≠ .kSuccess then (pml4, m)
  else
    (pml4, { m with
      tables := Function.update m.tables pml4.value fun i =>
        if i < 256 then m.tables currentPml4 i else m.tables pml4.value i })

/-- `MakeArgv`, for the command and the words behind it; a string is copied with its end. -/
def makeArgv (cr3 argv argvLen argbuf argbufLen : Nat) : (strings : List (List UInt8)) →
    (argc argbufIndex : Nat) → Machine → WithError Nat × Machine
  | [], argc, _, m => (⟨argc, .kSuccess⟩, m)
  | s :: rest, argc, argbufIndex, m =>
    if argvLen ≤ argc ∨ argbufLen ≤ argbufIndex then (⟨argc, .kFull⟩, m)
    else
      let pointer := add64 argbuf argbufIndex
      let m := m.storeBytes cr3 (add64 argv (8 * argc)) (fun k => UInt8.ofNat (pointer / 256 ^ k)) 8
      let m := m.storeBytes cr3 pointer (fun k => s.getD k 0) (s.length + 1)
      makeArgv cr3 argv argvLen argbuf argbufLen rest (argc + 1) (argbufIndex + s.length + 1) m

end Machine

def isspace (c : UInt8) : Bool := c = 0x20 || (0x09 ≤ c && c ≤ 0x0d)

def words (arg : List UInt8) : List (List UInt8) := (arg.splitOnP isspace).filter (· ≠ [])

/-- `e_ident` starts with `"\x7f" "ELF"`. -/
def isElf (image : Nat → UInt8) : Bool := Elf.field image 0 4 = 0x464c457f

/-! ## System calls for memory -/

namespace AppTask

def demandPages (t : AppTask) (numPages : Nat) : Nat × AppTask :=
  (t.dpagingEnd, { t with dpagingEnd := add64 t.dpagingEnd (mul64 4096 numPages) })

/-- The store to `*file_size` is a step of its own. -/
def mapFile (t : AppTask) (fd : Int) : Except Nat Nat × AppTask :=
  match t.file fd with
  | none => (.error EBADF, t)
  | some content =>
    let vaddrEnd := t.fileMapEnd
    let vaddrBegin := sub64 vaddrEnd content.length / 4096 * 4096
    (.ok vaddrBegin, { t with
      fileMapEnd := vaddrBegin, fileMaps := t.fileMaps ++ [⟨fd, vaddrBegin, vaddrEnd⟩] })

end AppTask

namespace System

def setTask (s : System) (task : Nat) (t : AppTask) : System :=
  { s with tasks := Function.update s.tasks task t }

def setMachine (s : System) (m : Machine) : System := { s with machine := m }

def setAppLoad (s : System) (file : Nat) (info : Option AppLoadInfo) : System :=
  { s with appLoads := Function.update s.appLoads file info }

/-! ## `LoadApp` and `ExecuteFile` -/

def setupPml4 (s : System) (task : Nat) : WithError Nat × System :=
  let (pml4, m) := s.machine.setupPml4 (s.tasks task).cr3
  if pml4.error ≠ .kSuccess then (pml4, s.setMachine m)
  else (pml4, (s.setMachine m).setTask task { s.tasks task with cr3 := pml4.value })

/-- `CopyPageMaps` from a prototype, which counts as an instance also when it fails. -/
def copyPrototype (s : System) (file dest : Nat) (info : AppLoadInfo) : WithError AppLoadInfo × System :=
  let (err, m) := copyPageMaps 4 256 s.machine dest info.pml4
  (⟨{ info with pml4 := dest }, err⟩,
    (s.setMachine m).setAppLoad file (some { info with count := info.count + 1 }))

/-- The application is loaded into a page map of its own, which becomes the prototype.  A store of the
loader to a page that is not mapped has no effect here. -/
def loadPrototype (s : System) (task file : Nat) (image : Nat → UInt8) :
    WithError AppLoadInfo × System :=
  let (pml4, s) := s.setupPml4 task
  if pml4.error ≠ .kSuccess then (⟨{}, pml4.error⟩, s)
  else
    let (lastAddr, m, _) := Elf.loadElf image pml4.value s.machine
    let s := s.setMachine m
    if lastAddr.error ≠ .kSuccess then (⟨{ entry := Elf.eEntry image }, lastAddr.error⟩, s)
    else
      let info : AppLoadInfo := ⟨lastAddr.value, Elf.eEntry image, pml4.value, some file, 0⟩
      (⟨info, .kSuccess⟩, s.setAppLoad file (some info))

def loadApp (s : System) (task file : Nat) (image : Nat → UInt8) : WithError AppLoadInfo × System :=
  match s.appLoads file with
  | some info =>
    let (pml4, s) := s.setupPml4 task
    if pml4.error ≠ .kSuccess then (⟨{}, pml4.error⟩, s) else s.copyPrototype file pml4.value info
  | none =>
    if ¬ isElf image then (⟨{}, .kInvalidFile⟩, s)
    else
      let (info, s) := s.loadPrototype task file image
      if info.error ≠ .kSuccess then (info, s)
      else
        let (pml4, s) := s.setupPml4 task
        if pml4.error ≠ .kSuccess then (⟨info.value, pml4.error⟩, s)
        else s.copyPrototype file pml4.value info.value

/-- The page of the arguments and the stack, in the page map of the task. -/
def setupStack (m : Machine) (cr3 : Nat) (strings : List (List UInt8)) : Error × Machine :=
  let (err, m) := m.setupPageMaps cr3 kArgsFrameAddr 1
  if err ≠ .kSuccess then (err, m)
  else
    let (argc, m) := makeArgv cr3 kArgsFrameAddr 32 (kArgsFrameAddr + 8 * 32) (4096 - 8 * 32) strings 0 0 m
    if argc.error ≠ .kSuccess then (argc.error, m)
    else m.setupPageMaps cr3 kStackFrameAddr (kUserStackSize / 4096)

/-- `ExecuteFile` up to `CallApp`. -/
def executeFile (s : System) (task file : Nat) (image : Nat → UInt8) (command : List UInt8)
    (arg : Option (List UInt8)) : Error × System :=
  let (appLoad, s) := s.loadApp task file image
  if appLoad.error ≠ .kSuccess then (appLoad.error, s)
  else
    let t := s.tasks task
    let (err, m) := setupStack s.machine t.cr3 (command :: (arg.map words).getD [])
    let s := s.setMachine m
    if err ≠ .kSuccess then (err, s)
    else
      let elfNextPage := add64 appLoad.value.vaddrEnd 4095 / 4096 * 4096
      (.kSuccess, s.setTask task { t with
        dpagingBegin := elfNextPage, dpagingEnd := elfNextPage, fileMapEnd := kStackFrameAddr,
        app := some (file, appLoad.value) })

/-! ## The end of `ExecuteFile` -/

/-- The pages of the instance are given back, and its prototype has one instance less. -/
def cleanInstance (s : System) (task prototype : Nat) (info : AppLoadInfo) : Error × System :=
  let (err, m) := s.machine.cleanPageMaps (s.tasks task).cr3 kUpperHalf
  if err ≠ .kSuccess then (err, s.setMachine m)
  else
    (.kSuccess, (s.setMachine m).setAppLoad prototype (some { info with count := info.count - 1 }))

def freePml4 (s : System) (task : Nat) : Error × System :=
  let (err, m) := s.machine.freePageMap (s.tasks task).cr3
  (err, (s.setMachine m).setTask task { s.tasks task with cr3 := s.kernelPml4 })

/-- A prototype without instances is given back. -/
def cleanPrototype (s : System) (file : Nat) (info : AppLoadInfo) : Error × System :=
  if info.count = 0 then
    let (err, m) := s.machine.cleanPageMapsForMeta info.pml4
    if err ≠ .kSuccess then (err, s.setMachine m) else (.kSuccess, (s.setMachine m).setAppLoad file none)
  else (.kSuccess, s)

/-- `ExecuteFile` from the return of `CallApp` on.  There is no step when the pointer to the prototype
dangles. -/
def exitApp (s : System) (task : Nat) : Option (Error × System) :=
  match (s.tasks task).app with
  | none => none
  | some (file, appLoad) =>
    match appLoad.prototype with
    | none => none
    | some prototype =>
      match s.appLoads prototype with
      | none => none
      | some info =>
        let s := s.setTask task { s.tasks task with fileMaps := [], app := none }
        let (err, s) :=
          if kUpperHalf ≤ appLoad.entry then s.cleanInstance task prototype info else (.kSuccess, s)
        if err ≠ .kSuccess then some (err, s)
        else
          let (err, s) := s.freePml4 task
          if err ≠ .kSuccess then some (err, s)
          else (s.appLoads prototype).map (s.cleanPrototype file)

/-! ## Page faults -/

def preparePageCache (s : System) (task causalAddr : Nat) (m : FileMapping) : Error × System :=
  let t := s.tasks task
  let pageVaddr := causalAddr - causalAddr % 4096
  let (err, machine) := s.machine.setupPageMaps t.cr3 pageVaddr 1
  if err ≠ .kSuccess then (err, s.setMachine machine)
  else
    let content := (((t.file m.fd).getD []).drop (sub64 pageVaddr m.vaddrBegin)).take 4096
    (.kSuccess, s.setMachine (machine.storeBytes t.cr3 pageVaddr (fun k => content.getD k 0) content.length))

def findFileMapping (fmaps : List FileMapping) (causalVaddr : Nat) : Option FileMapping :=
  fmaps.find? fun m => m.vaddrBegin ≤ causalVaddr ∧ causalVaddr < m.vaddrEnd

def handlePageFault (s : System) (task : Nat) (present rw user : Bool) (causalAddr : Nat) :
    Error × System :=
  let t := s.tasks task
  if present ∧ rw ∧ user then
    let (err, m) := s.machine.copyOnePage t.cr3 causalAddr
    (err, s.setMachine m)
  else if present then (.kAlreadyAllocated, s)
  else if t.dpagingBegin ≤ causalAddr ∧ causalAddr < t.dpagingEnd then
    let (err, m) := s.machine.setupPageMaps t.cr3 causalAddr 1
    (err, s.setMachine m)
  else
    match findFileMapping t.fileMaps causalAddr with
    | some m => s.preparePageCache task causalAddr m
    | none => (.kIndexOutOfRange, s)

/-- The processor takes no other addresses. -/
def canonical (vaddr : Nat) : Bool := vaddr < 2 ^ 47 || (kUpperHalf ≤ vaddr && vaddr < 2 ^ 64)

/-- An application that a fault is not handled for is killed. -/
def userFault (s : System) (task : Nat) (present rw : Bool) (vaddr : Nat) : Option System :=
  let (err, s') := s.handlePageFault task present rw true vaddr
  if err ≠ .kSuccess then (s'.exitApp task).map Prod.snd else some s'

/-- An access of an application; after a fault that was handled it is made again. -/
def userAccess (s : System) (task vaddr : Nat) (store : Option UInt8) : Option System :=
  if ¬ canonical vaddr then (s.exitApp task).map Prod.snd
  else
    match s.machine.walk (s.tasks task).cr3 vaddr with
    | none => s.userFault task false store.isSome vaddr
    | some e =>
      match store with
      | none => if e.user then some s else s.userFault task true false vaddr
      | some byte =>
        if e.user ∧ e.writable then
          some (s.setMachine (s.machine.setByte e.addr (part vaddr 0) byte))
        else s.userFault task true true vaddr

/-- A store of a system call to the memory of the application.  There is no step when the kernel halts. -/
def kernelStore (s : System) (task vaddr : Nat) (byte : UInt8) : Option System :=
  if ¬ canonical vaddr then none
  else
    let cr3 := (s.tasks task).cr3
    match s.machine.walk cr3 vaddr with
    | some _ => some (s.setMachine (s.machine.storeByte cr3 vaddr byte))
    | none =>
      let (err, s') := s.handlePageFault task false true false vaddr
      if err ≠ .kSuccess then none else some (s'.setMachine (s'.machine.storeByte cr3 vaddr byte))

def demandPages (s : System) (task numPages : Nat) : System :=
  s.setTask task ((s.tasks task).demandPages numPages).2

def mapFile (s : System) (task : Nat) (fd : Int) : System :=
  s.setTask task ((s.tasks task).mapFile fd).2

inductive Event where
  | executeFile (task file : Nat) (image : Nat → UInt8) (command : List UInt8) (arg : Option (List UInt8))
  | exitApp (task : Nat)
  | userLoad (task vaddr : Nat)
  | userStore (task vaddr : Nat) (byte : UInt8)
  | kernelStore (task vaddr : Nat) (byte : UInt8)
  | demandPages (task numPages : Nat)
  | mapFile (task : Nat) (fd : Int)
  | newTask (parent task : Nat)

/-- Only a task that is not in `CallApp` starts an application or a task. -/
def step (s : System) : Event → Option System
  | .executeFile task file image command arg =>
    if (s.tasks task).app.isSome then none
    else
      let (err, s) := s.executeFile task file image command arg
      -- the kernel goes on in the file itself
      if err = .kInvalidFormatLA then none else some s
  | .exitApp task => (s.exitApp task).map Prod.snd
  | .userLoad task vaddr => if (s.tasks task).app.isSome then s.userAccess task vaddr none else none
  | .userStore task vaddr byte =>
    if (s.tasks task).app.isSome then s.userAccess task vaddr (some byte) else none
  | .kernelStore task vaddr byte =>
    if (s.tasks task).app.isSome then s.kernelStore task vaddr byte else none
  | .demandPages task numPages =>
    if (s.tasks task).app.isSome then some (s.demandPages task numPages) else none
  | .mapFile task fd => if (s.tasks task).app.isSome then some (s.mapFile task fd) else none
  | .newTask parent task =>
    if (s.tasks parent).app.isSome ∨ (s.tasks task).app.isSome then none
    else some (s.setTask task { cr3 := (s.tasks parent).cr3 })

/-- The states that a list of events leads to. -/
def run (s : System) : List Event → Option System
  | [] => some s
  | e :: es => (s.step e).bind fun s' => s'.run es

end System

end MikanSaos
