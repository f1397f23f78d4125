import MikanSaos.Reasoning.Simulation
import MikanSaos.Reasoning.X64

/-!
# SystemCall — the way into an application and back

`CallApp` saves what a caller expects back, leaves the stack pointer in `os_stack_ptr`, and returns to the outer ring.
`SyscallEntry` calls a function of the kernel on the stack that `os_stack_ptr` points to.  After the system call `Exit`
it goes on with `ExitApp`, which returns from `CallApp`.
-/

open Reasoning Reasoning.X64

namespace MikanSaos.Assembly

/-! `CallApp` -/

def savedRegs : List Reg := [.rbx, .rbp, .r12, .r13, .r14, .r15]

def saveCaller : List Instr := (savedRegs.map Operand.reg).map .push

def pushApp : List Instr := [
  .store .r9 0 .rsp,

  .push (.reg .rdx),
  .push (.reg .r8),
  .addImm .rdx 8,
  .push (.reg .rdx),
  .push (.reg .rcx)]

def callApp : List Instr := saveCaller ++ (pushApp ++ [.retf])

/-! `SyscallEntry`, up to the call of `GetCurrentTaskOSStackPointer`. -/

def pushAppState : List Instr := [Operand.reg .rbp, .reg .rcx, .reg .r11, .reg .rax].map .push

def takeArguments : List Instr := [
  .mov .rcx .r10,
  .andImm32 .rax 0x7fffffff,
  .mov .rbp .rsp,
  .andImm .rsp (~~~0xf)]

def pushScratch : List Instr := [Operand.reg .rax, .reg .rdx].map .push

def enterSyscall : List Instr := pushAppState ++ (takeArguments ++ (pushScratch ++ [.cli]))

/-- A displacement below the base: addresses wrap at 2^64. -/
def minus (n : Nat) : Nat := 0x10000000000000000 - n

/-! `SyscallEntry`, up to the call of the function in `syscall_table`. -/

def carryScratch : List Instr := [
  .sti,
  .load .rdx .rsp 0,
  .store .rax (minus 16) .rdx,
  .load .rdx .rsp 8,
  .store .rax (minus 8) .rdx]

def toOSStack : List Instr := [
  .lea .rsp .rax (minus 16),
  .pop .rdx,
  .pop .rax,
  .andImm .rsp (~~~0xf)]

/-! `SyscallEntry` after the call. -/

def popCode : List Instr := [
  .mov .rsp .rbp,

  .pop .rsi]

def popAppState : List Instr := [Reg.r11, .rcx, .rbp].map .pop

def exitArguments : List Instr := [
  .mov .rdi .rax,
  .mov32 .rsi .rdx]

def exitApp : List Instr := [.mov .rsp .rdi, .mov32 .rax .rsi] ++ (savedRegs.reverse.map .pop ++ [.ret])

/-- The code of the system call `Exit`. -/
def exitCode : BitVec 32 := 0x80000002

/-! ## The instructions `syscall` and `sysret` -/

/-- What `InitializeSyscall` writes to the model specific registers. -/
structure SyscallMSRs where
  /-- `IA32_LSTAR` -/
  entry : Word
  kernelCS : BitVec 16
  kernelSS : BitVec 16
  appCS : BitVec 16
  appSS : BitVec 16

/-- `IA32_FMASK` is zero. -/
def enterRing0 (msr : SyscallMSRs) (s : State) : State where
  cpu := { (s.cpu.set .rcx s.cpu.rip).set .r11 s.cpu.rflags with
    rip := msr.entry
    seg := Function.update (Function.update s.cpu.seg .cs msr.kernelCS) .ss msr.kernelSS }
  mem := s.mem

/-- `RF` and `VM` become zero. -/
def sysretFlags (v : Word) : Word := v &&& 0x3c7fd7 ||| 2

def sysret (msr : SyscallMSRs) (s : State) : State where
  cpu := { s.cpu with
    rip := s.cpu.reg .rcx
    rflags := sysretFlags (s.cpu.reg .r11)
    seg := Function.update (Function.update s.cpu.seg .cs msr.appCS) .ss msr.appSS }
  mem := s.mem

/-! ## Calls of C functions -/

/-- The registers that a function gives back as they were. -/
def calleeSaved : List Reg := [.rbx, .rbp, .rsp, .r12, .r13, .r14, .r15]

/-- A function has returned.  It wrote to none of the addresses in `kept`. -/
structure Called (kept : Address → Prop) (s t : State) : Prop where
  reg : ∀ r ∈ calleeSaved, t.cpu.reg r = s.cpu.reg r
  mem : ∀ x, kept x → t.mem x = s.mem x

variable {alu : Word → Word → Word} {s t t₁ t₂ : State} {mem mem' : ByteMemory} {p q : Processor}
  {msr : SyscallMSRs}

/-! ## The frame of an application -/

structure AppFrame where
  /-- `os_stack_ptr` -/
  ptr : Address
  /-- The stack pointer that is saved there. -/
  osp : Address
  /-- From the stack pointer on: the registers of the caller, and the return address. -/
  words : List Word

/-- The frame that `CallApp` makes. -/
def callFrame (s : State) : AppFrame where
  ptr := s.cpu.reg .r9
  osp := below (s.cpu.reg .rsp) 6
  words := savedRegs.reverse.map s.cpu.reg ++ [s.top]

structure AppFrame.Intact (frame : AppFrame) (mem : ByteMemory) : Prop where
  ptr : mem.loadWord frame.ptr = frame.osp
  words : ByteMemory.WordsAt mem frame.osp frame.words

variable {frame : AppFrame}

theorem run_saveCaller : run alu saveCaller s =
    ⟨s.cpu.set .rsp (below (s.cpu.reg .rsp) 6), s.mem.pushWords (s.cpu.reg .rsp) (savedRegs.map s.cpu.reg)⟩ := by
  have hkept : ∀ op ∈ savedRegs.map Operand.reg, op.Kept s 6 := by
    intro op hop
    obtain ⟨r, hr, rfl⟩ := List.mem_map.mp hop
    rintro rfl
    revert hr
    decide
  exact run_pushes (by decide) hkept

/-- The frame for the far return, from the last word pushed on. -/
def startFrame (p : Processor) : List Word := [p.reg .rcx, p.reg .rdx + 8, p.reg .r8, p.reg .rdx]

/-- The processor that the application starts with. -/
def startedCpu (p : Processor) (flags : Word) : Processor where
  reg := Function.update (Function.update p.reg .rdx (p.reg .rdx + 8)) .rsp (p.reg .r8)
  rip := p.reg .rcx
  rflags := flags
  cr3 := p.cr3
  seg := Function.update (Function.update p.seg .cs ((p.reg .rdx + 8).setWidth 16)) .ss ((p.reg .rdx).setWidth 16)
  fx := p.fx

theorem run_pushApp {sp : Address} : run alu pushApp ⟨p.set .rsp sp, mem⟩ =
    ⟨{ (p.set .rdx (p.reg .rdx + 8)).set .rsp (below sp 4) with rflags := alu p.rflags (p.reg .rdx + 8) },
      (mem.storeWord (p.reg .r9) sp).pushWords sp (startFrame p).reverse⟩ := by
  have hsp : sp - 8 - 8 - 8 - 8 = below sp 4 := by
    unfold below
    bv_omega
  simp [pushApp, startFrame, run, exec, State.set, Processor.set, State.addr, State.push, State.value, State.setFlags,
    ByteMemory.pushWords, ← hsp]
  funext r
  cases r <;> simp

theorem run_startApp {sp : Address} (hring : State.ring (p.seg .cs) < State.ring ((p.reg .rdx + 8).setWidth 16)) :
    run alu (pushApp ++ [.retf]) ⟨p.set .rsp sp, mem⟩ =
      ⟨startedCpu p (alu p.rflags (p.reg .rdx + 8)),
        (mem.storeWord (p.reg .r9) sp).pushWords sp (startFrame p).reverse⟩ := by
  have hpushed : ByteMemory.WordsAt ((mem.storeWord (p.reg .r9) sp).pushWords sp (startFrame p).reverse) (below sp 4)
      ((startFrame p).reverse.reverse ++ []) := ByteMemory.wordsAt_pushWords (by simp [startFrame]) trivial
  rw [List.reverse_reverse, List.append_nil] at hpushed
  rw [run_append, run_pushApp, run_cons, run_nil, exec_retf_outer (by rw [Processor.set_self]; exact hpushed)
    (by exact hring)]
  simp [startedCpu, Processor.set]

/-- `CallApp` starts the application in the outer ring, and leaves the frame for `ExitApp`. -/
theorem run_callApp (hring : State.ring (s.cpu.seg .cs) < State.ring ((s.cpu.reg .rdx + 8).setWidth 16))
    (hptr : Apart (s.cpu.reg .r9) 8 (below (s.cpu.reg .rsp) 10) 88) :
    (∃ flags, (run alu callApp s).cpu = startedCpu s.cpu flags) ∧ (callFrame s).Intact (run alu callApp s).mem := by
  have hsaved : ByteMemory.WordsAt (s.mem.pushWords (s.cpu.reg .rsp) (savedRegs.map s.cpu.reg))
      (below (s.cpu.reg .rsp) 6) ((savedRegs.map s.cpu.reg).reverse ++ [s.top]) :=
    ByteMemory.wordsAt_pushWords (by simp [savedRegs]) ⟨rfl, trivial⟩
  have hpush : ∀ x, ¬ InBlock x (below (s.cpu.reg .rsp) 10) 32 → ∀ mem : ByteMemory,
      mem.pushWords (below (s.cpu.reg .rsp) 6) (startFrame s.cpu).reverse x = mem x := by
    intro x hx mem
    apply ByteMemory.pushWords_of_not_in (by simp [startFrame])
    rwa [below_below]
  rw [callApp, run_append, run_saveCaller, run_startApp hring]
  generalize s.mem.pushWords (s.cpu.reg .rsp) (savedRegs.map s.cpu.reg) = mem at *
  refine ⟨⟨_, rfl⟩, ?_, ?_⟩
  · have hsame : ((mem.storeWord (s.cpu.reg .r9) (below (s.cpu.reg .rsp) 6)).pushWords (below (s.cpu.reg .rsp) 6)
        (startFrame s.cpu).reverse).loadWord (s.cpu.reg .r9) =
          (mem.storeWord (s.cpu.reg .r9) (below (s.cpu.reg .rsp) 6)).loadWord (s.cpu.reg .r9) :=
      ByteMemory.loadWord_congr fun x hx => hpush x (fun h => hptr x hx (h.trans_le (by decide))) _
    exact hsame.trans (ByteMemory.loadWord_storeWord ..)
  · rw [← List.map_reverse] at hsaved
    refine ByteMemory.wordsAt_congr (fun x hx => ?_) (by simp [callFrame, savedRegs]) hsaved
    have hin : InBlock x (below (s.cpu.reg .rsp) 6) 56 := hx
    have hframe : ¬ InBlock x (below (s.cpu.reg .rsp) 10) 32 := by
      unfold InBlock below at *
      bv_omega
    refine (hpush x hframe _).trans (ByteMemory.storeWord_of_not_in fun h => hptr x h ?_)
    unfold InBlock below at *
    bv_omega
theorem run_exitApp {value : Reg → Word} {ret : Word}
    (hwords : ByteMemory.WordsAt mem (q.reg .rdi) (savedRegs.reverse.map value ++ [ret])) :
    ∃ p, run alu exitApp ⟨q, mem⟩ = ⟨p, mem⟩ ∧ p.rip = ret ∧ p.reg .rsp = q.reg .rdi + 56 ∧
      (∀ r ∈ savedRegs, p.reg r = value r) ∧ p.reg .rax = ((q.reg .rsi).setWidth 32).setWidth 64 := by
  have hrax : run alu [.mov .rsp .rdi, .mov32 .rax .rsi] ⟨q, mem⟩ =
      ⟨(q.set .rsp (q.reg .rdi)).set .rax (((q.reg .rsi).setWidth 32).setWidth 64), mem⟩ := by
    simp [run, exec, State.set, Processor.set]
  generalize hq : (q.set .rsp (q.reg .rdi)).set .rax (((q.reg .rsi).setWidth 32).setWidth 64) = q' at hrax
  have hrsp : q'.reg .rsp = q.reg .rdi := by
    subst hq
    rfl
  rw [← hrsp] at hwords
  obtain ⟨p, hrun, hpops⟩ := @run_pops_then alu q' mem savedRegs.reverse value [.ret] (by decide) hwords.append_left
  have hsp : p.reg .rsp = q'.reg .rsp + 48 := hpops.rsp
  have hret : mem.loadWord (p.reg .rsp) = ret := by
    rw [hsp]
    exact hwords.append_right.1
  refine ⟨{ p.set .rsp (p.reg .rsp + 8) with rip := ret }, ?_, rfl, ?_, fun r hr => ?_, ?_⟩
  · rw [exitApp, run_append, hrax, hrun]
    simp [run, exec, State.drop, State.setRip, State.set, State.top, hret]
  · rw [← hrsp]
    exact (Processor.set_self p .rsp _).trans (by rw [hsp, BitVec.add_assoc]; rfl)
  · have hr' : r ≠ .rsp := by
      rintro rfl
      revert hr
      decide
    exact (Processor.set_of_ne p _ hr').trans ((hpops.reg r hr').trans (if_pos (List.mem_reverse.mpr hr)))
  · have hne : Reg.rax ≠ .rsp := by decide
    refine (Processor.set_of_ne p (p.reg .rsp + 8) hne).trans ((hpops.reg .rax hne).trans ?_)
    subst hq
    simp [savedRegs, Processor.set]

/-! ## A system call -/

/-- The number of the function in `syscall_table`. -/
def tableIndex (code : Word) : Word := (code.setWidth 32 &&& 0x7fffffff).setWidth 64

/-- `rsp` aligned to 16 bytes. -/
def aligned (sp : Address) : Address := sp &&& ~~~0xf

theorem aligned_le (sp : Address) : (sp - aligned sp).toNat < 16 := by
  have hsub : sp - aligned sp = sp &&& 0xf := by
    have hsum := and_not_add_and sp 0xf
    unfold aligned
    bv_omega
  rw [hsub, BitVec.toNat_and]
  exact Nat.lt_succ_of_le Nat.and_le_right

/-- Below the return address, the flags and the code, the application's `rbp` is the last word. -/
def appWords (s : State) : List Word := [s.cpu.reg .rax, s.cpu.reg .r11, s.cpu.reg .rcx, s.cpu.reg .rbp]

/-- Where the scratch words are while the system call is on the stack of the application. -/
def scratch (s : State) : Address := below (aligned (below (s.cpu.reg .rsp) 4)) 2

def scratchWords (s : State) : List Word := [s.cpu.reg .rdx, tableIndex (s.cpu.reg .rax)]

/-- The processor when `GetCurrentTaskOSStackPointer` is called. -/
def enteredSyscall (s : State) (flags : Word) : Processor :=
  { (((s.cpu.set .rcx (s.cpu.reg .r10)).set .rax (tableIndex (s.cpu.reg .rax))).set .rbp
      (below (s.cpu.reg .rsp) 4)).set .rsp (scratch s) with rflags := flags }

theorem run_pushAppState : run alu pushAppState s =
    ⟨s.cpu.set .rsp (below (s.cpu.reg .rsp) 4), s.mem.pushWords (s.cpu.reg .rsp) (appWords s).reverse⟩ := by
  have hkept : ∀ op ∈ [Operand.reg .rbp, .reg .rcx, .reg .r11, .reg .rax], op.Kept s 4 := by
    simp [Operand.Kept]
  exact run_pushes (by decide) hkept

theorem run_enterSyscall : ∃ flags, run alu enterSyscall s =
    ⟨enteredSyscall s flags, (s.mem.pushWords (s.cpu.reg .rsp) (appWords s).reverse).pushWords
      (aligned (below (s.cpu.reg .rsp) 4)) (scratchWords s).reverse⟩ := by
  rw [enterSyscall, run_append, run_pushAppState]
  generalize s.mem.pushWords (s.cpu.reg .rsp) (appWords s).reverse = mem
  have hscratch : aligned (below (s.cpu.reg .rsp) 4) - 8 - 8 = scratch s := by
    unfold scratch
    generalize aligned (below (s.cpu.reg .rsp) 4) = a
    unfold below
    bv_omega
  refine ⟨alu (alu s.cpu.rflags (tableIndex (s.cpu.reg .rax))) (aligned (below (s.cpu.reg .rsp) 4)) &&&
    ~~~State.interruptFlag, ?_⟩
  simp [takeArguments, pushScratch, run, exec, State.set, Processor.set, State.setFlags, State.push, State.value,
    aligned, scratchWords, ByteMemory.pushWords, enteredSyscall, tableIndex, ← hscratch]
  funext r
  cases r <;> simp

/-- The words below `os_stack_ptr` that carry `rdx` and the table index from one stack to the other. -/
def carriedMem (mem : ByteMemory) (osp : Address) (rdx index : Word) : ByteMemory :=
  (mem.storeWord (osp - 16) rdx).storeWord (osp - 8) index

theorem add_minus (a : Address) {n : Nat} (hn : n ≤ 2 ^ 64) :
    a + BitVec.ofNat 64 (minus n) = a - BitVec.ofNat 64 n := by
  unfold minus
  bv_omega

theorem wordsAt_carriedMem {osp : Address} {rdx index : Word} :
    ByteMemory.WordsAt (carriedMem mem osp rdx index) (osp - 16) [rdx, index] := by
  have hnext : osp - 16 + 8 = osp - 8 := by bv_omega
  refine ⟨?_, ?_, trivial⟩
  · rw [carriedMem, ByteMemory.loadWord_storeWord_of_apart, ByteMemory.loadWord_storeWord]
    intro x hx hy
    unfold InBlock at *
    bv_omega
  · rw [carriedMem, hnext, ByteMemory.loadWord_storeWord]

theorem run_carryScratch {rdx index : Word} (hwords : ByteMemory.WordsAt mem (q.reg .rsp) [rdx, index])
    (happart : Apart (q.reg .rax - 16) 16 (q.reg .rsp) 16) :
    run alu carryScratch ⟨q, mem⟩ =
      ⟨{ q.set .rdx index with rflags := q.rflags ||| State.interruptFlag },
        carriedMem mem (q.reg .rax) rdx index⟩ := by
  obtain ⟨hrdx, hindex, -⟩ := hwords
  have hindex' : (mem.storeWord (q.reg .rax - 16#64) rdx).loadWord (q.reg .rsp + 8#64) = index := by
    refine (ByteMemory.loadWord_storeWord_of_apart fun x hx hy => ?_).trans hindex
    refine happart x (hy.trans_le (by decide)) ?_
    unfold InBlock at *
    bv_omega
  have hlow16 := add_minus (q.reg .rax) (show 16 ≤ 2 ^ 64 by decide)
  have hlow8 := add_minus (q.reg .rax) (show 8 ≤ 2 ^ 64 by decide)
  rw [carryScratch, carriedMem]
  generalize minus 16 = low16 at *
  generalize minus 8 = low8 at *
  simp [run, exec, State.addr, State.set, Processor.set, State.setFlags, hrdx, hindex', hlow16, hlow8]

theorem run_toOSStack {rdx index : Word} (hwords : ByteMemory.WordsAt mem (q.reg .rax - 16) [rdx, index]) : ∃ flags,
    run alu toOSStack ⟨q, mem⟩ =
      ⟨{ ((q.set .rdx rdx).set .rax index).set .rsp (aligned (q.reg .rax)) with rflags := flags }, mem⟩ := by
  obtain ⟨hrdx, hindex, -⟩ := hwords
  have hlow := add_minus (q.reg .rax) (show 16 ≤ 2 ^ 64 by decide)
  rw [toOSStack]
  generalize minus 16 = low at *
  have hnext : q.reg .rax - 16 + 8 + 8 = q.reg .rax := by bv_omega
  refine ⟨alu q.rflags (aligned (q.reg .rax)), ?_⟩
  simp only [BitVec.ofNat_eq_ofNat] at hrdx hindex hnext
  simp [run, exec, State.addr, State.drop, State.top, State.set, Processor.set, State.setFlags, hrdx, hindex, hlow,
    hnext, aligned]
  funext r
  cases r <;> simp

theorem run_popCode {code : Word} (hcode : mem.loadWord (q.reg .rbp) = code) :
    run alu popCode ⟨q, mem⟩ = ⟨(q.set .rsp (q.reg .rbp + 8)).set .rsi code, mem⟩ := by
  simp [popCode, run, exec, State.set, State.drop, State.top, Processor.set, hcode]

theorem run_popAppState {flags ip bp : Word} (hwords : ByteMemory.WordsAt mem (q.reg .rsp) [flags, ip, bp]) :
    run alu popAppState ⟨q, mem⟩ =
      ⟨(((q.set .r11 flags).set .rcx ip).set .rbp bp).set .rsp (q.reg .rsp + 24), mem⟩ :=
  run_pops (by decide) rfl hwords

/-- `SyscallEntry` from the call on: it looks at the code that it has saved. -/
def leaveSyscall (alu : Word → Word → Word) (msr : SyscallMSRs) (t : State) : State :=
  let u := run alu popCode t
  if (u.cpu.reg .rsi).setWidth 32 = exitCode then run alu (exitArguments ++ exitApp) u
  else sysret msr (run alu popAppState u)

/-- The addresses that nothing writes to while the application runs. -/
def AppFrame.Keeps (frame : AppFrame) (x : Address) : Prop := InBlock x frame.osp 56 ∨ InBlock x frame.ptr 8

/-- A system call at `s`, the next instruction being `syscall`.  `GetCurrentTaskOSStackPointer` has returned at `t₁`,
and the function of `syscall_table` at `t₂`. -/
structure SyscallRun (alu : Word → Word → Word) (msr : SyscallMSRs) (frame : AppFrame) (s t₁ t₂ : State) : Prop where
  pointer : Called (fun x => frame.Keeps x ∨ InBlock x (scratch s) 64) (run alu enterSyscall (enterRing0 msr s)) t₁
  osp : t₁.cpu.reg .rax = t₁.mem.loadWord frame.ptr
  function : Called (fun x => frame.Keeps x ∨ InBlock x (scratch s) 64) (run alu (carryScratch ++ toOSStack) t₁) t₂
  stack : ∀ x, InBlock x (scratch s) 64 → ¬ frame.Keeps x
  carried : ∀ x, InBlock x (frame.osp - 16) 16 → ¬ (frame.Keeps x ∨ InBlock x (scratch s) 64)

theorem AppFrame.Intact.congr (h : frame.Intact mem) (hlen : frame.words.length = 7)
    (hsame : ∀ x, frame.Keeps x → mem' x = mem x) : frame.Intact mem' where
  ptr := by
    rw [← h.ptr]
    exact ByteMemory.loadWord_congr fun x hx => hsame x (.inr hx)
  words := by
    refine ByteMemory.wordsAt_congr (fun x hx => hsame x (.inl ?_)) (by rw [hlen]; decide) h.words
    rwa [hlen] at hx

/-- The blocks of a system call on the stack of the application. -/
theorem stack_in_scratch (s : State) {x : Address}
    (h : InBlock x (below (s.cpu.reg .rsp) 4) 32 ∨ InBlock x (scratch s) 16) : InBlock x (scratch s) 64 := by
  have hle := aligned_le (below (s.cpu.reg .rsp) 4)
  unfold scratch
  unfold scratch at h
  generalize aligned (below (s.cpu.reg .rsp) 4) = a at *
  unfold InBlock below at *
  rcases h with h | h <;> bv_omega

/-- What `SyscallEntry` has done when it calls `GetCurrentTaskOSStackPointer`. -/
structure Entered (s u : State) : Prop where
  rbp : u.cpu.reg .rbp = below (s.cpu.reg .rsp) 4
  rsp : u.cpu.reg .rsp = scratch s
  reg : ∀ r ∈ [Reg.rbx, .r12, .r13, .r14, .r15], u.cpu.reg r = s.cpu.reg r
  app : ByteMemory.WordsAt u.mem (below (s.cpu.reg .rsp) 4) (appWords s)
  carried : ByteMemory.WordsAt u.mem (scratch s) (scratchWords s)

theorem pushScratch_of_not_in {x : Address} (h : ¬ InBlock x (scratch s) 16) :
    mem.pushWords (aligned (below (s.cpu.reg .rsp) 4)) (scratchWords s).reverse x = mem x :=
  ByteMemory.pushWords_of_not_in (by simp [scratchWords]) h

theorem enterSyscall_of_not_in (alu : Word → Word → Word) {x : Address} (h : ¬ InBlock x (scratch s) 64) :
    (run alu enterSyscall s).mem x = s.mem x := by
  obtain ⟨flags, hrun⟩ := @run_enterSyscall alu s
  have happ : s.mem.pushWords (s.cpu.reg .rsp) (appWords s).reverse x = s.mem x :=
    ByteMemory.pushWords_of_not_in (by simp [appWords]) fun hin => h (stack_in_scratch s (.inl hin))
  rw [hrun, ← happ]
  exact pushScratch_of_not_in fun hin => h (stack_in_scratch s (.inr hin))

theorem entered_enterSyscall (alu : Word → Word → Word) (s : State) : Entered s (run alu enterSyscall s) := by
  obtain ⟨flags, hrun⟩ := @run_enterSyscall alu s
  rw [hrun]
  refine ⟨rfl, rfl, fun r hr => ?_, ?_, ?_⟩
  · simp only [List.mem_cons, List.not_mem_nil, or_false] at hr
    rcases hr with rfl | rfl | rfl | rfl | rfl <;> rfl
  · have hwords : ByteMemory.WordsAt (s.mem.pushWords (s.cpu.reg .rsp) (appWords s).reverse)
      (below (s.cpu.reg .rsp) 4) ((appWords s).reverse.reverse ++ []) :=
      ByteMemory.wordsAt_pushWords (by simp [appWords]) trivial
    rw [List.reverse_reverse, List.append_nil] at hwords
    refine ByteMemory.wordsAt_congr (fun x hx => pushScratch_of_not_in fun h => ?_) (by simp [appWords]) hwords
    have hin : InBlock x (below (s.cpu.reg .rsp) 4) 32 := hx
    have hle := aligned_le (below (s.cpu.reg .rsp) 4)
    unfold scratch at h
    generalize aligned (below (s.cpu.reg .rsp) 4) = a at *
    unfold InBlock below at *
    bv_omega
  · have hwords : ByteMemory.WordsAt ((s.mem.pushWords (s.cpu.reg .rsp) (appWords s).reverse).pushWords
        (aligned (below (s.cpu.reg .rsp) 4)) (scratchWords s).reverse) (scratch s)
        ((scratchWords s).reverse.reverse ++ []) :=
      ByteMemory.wordsAt_pushWords (by simp [scratchWords]) trivial
    rwa [List.reverse_reverse, List.append_nil] at hwords

namespace SyscallRun

variable (h : SyscallRun alu msr frame s t₁ t₂)
include h

theorem entered : Entered (enterRing0 msr s) t₁ := by
  have hentered := entered_enterSyscall alu (enterRing0 msr s)
  refine ⟨?_, ?_, fun r hr => ?_, ?_, ?_⟩
  · rw [h.pointer.reg _ (by decide), hentered.rbp]
  · rw [h.pointer.reg _ (by decide), hentered.rsp]
  · rw [h.pointer.reg _ ?_, hentered.reg r hr]
    revert r
    decide
  · exact ByteMemory.wordsAt_congr
      (fun x hx => h.pointer.mem x (.inr (stack_in_scratch (enterRing0 msr s) (.inl hx))))
        (by simp [appWords]) hentered.app
  · exact ByteMemory.wordsAt_congr
      (fun x hx => h.pointer.mem x (.inr (stack_in_scratch (enterRing0 msr s) (.inr hx))))
        (by simp [scratchWords]) hentered.carried

theorem intact₁ (hframe : frame.Intact s.mem) (hlen : frame.words.length = 7) : frame.Intact t₁.mem := by
  refine hframe.congr hlen fun x hx => ?_
  rw [h.pointer.mem x (.inl hx), enterSyscall_of_not_in]
  · rfl
  · exact fun hin => h.stack x hin hx

/-- The function of `syscall_table` is called with the index in `rax` and the application's `rdx`, on the stack of the
kernel. -/
theorem called (hframe : frame.Intact s.mem) (hlen : frame.words.length = 7) : ∃ flags,
    run alu (carryScratch ++ toOSStack) t₁ =
      ⟨{ ((t₁.cpu.set .rdx (s.cpu.reg .rdx)).set .rax (tableIndex (s.cpu.reg .rax))).set .rsp (aligned frame.osp) with
          rflags := flags },
        carriedMem t₁.mem frame.osp (s.cpu.reg .rdx) (tableIndex (s.cpu.reg .rax))⟩ := by
  have hosp : t₁.cpu.reg .rax = frame.osp := h.osp.trans (h.intact₁ hframe hlen).ptr
  have hcarried : ByteMemory.WordsAt t₁.mem (t₁.cpu.reg .rsp) [s.cpu.reg .rdx, tableIndex (s.cpu.reg .rax)] := by
    rw [h.entered.rsp]
    exact h.entered.carried
  have happart : Apart (t₁.cpu.reg .rax - 16) 16 (t₁.cpu.reg .rsp) 16 := by
    rw [hosp, h.entered.rsp]
    exact fun x hx hy => h.carried x hx (.inr (stack_in_scratch s (.inr hy)))
  have hcarry := @run_carryScratch alu t₁.mem t₁.cpu _ _ hcarried happart
  obtain ⟨flags, hrun⟩ := @run_toOSStack alu
    (carriedMem t₁.mem (t₁.cpu.reg .rax) (s.cpu.reg .rdx) (tableIndex (s.cpu.reg .rax)))
    { t₁.cpu.set .rdx (tableIndex (s.cpu.reg .rax)) with rflags := t₁.cpu.rflags ||| State.interruptFlag }
      (s.cpu.reg .rdx) (tableIndex (s.cpu.reg .rax)) wordsAt_carriedMem
  refine ⟨flags, ?_⟩
  rw [run_append, hcarry, hrun, ← hosp]
  simp [Processor.set]

theorem carriedMem_of_kept {x : Address} {rdx index : Word} (hx : frame.Keeps x ∨ InBlock x (scratch s) 64) :
    carriedMem mem frame.osp rdx index x = mem x := by
  have hnot : ¬ InBlock x (frame.osp - 16) 16 := fun hin => h.carried x hin hx
  unfold carriedMem
  rw [ByteMemory.storeWord_of_not_in, ByteMemory.storeWord_of_not_in]
  · exact fun hin => hnot (hin.trans_le (by decide))
  · intro hin
    apply hnot
    unfold InBlock at *
    bv_omega

/-- What the function of `syscall_table` must not write to is as it was when the first call had returned. -/
theorem mem₂ (hframe : frame.Intact s.mem) (hlen : frame.words.length = 7) {x : Address}
    (hx : frame.Keeps x ∨ InBlock x (scratch s) 64) : t₂.mem x = t₁.mem x := by
  obtain ⟨flags, hcalled⟩ := h.called hframe hlen
  rw [h.function.mem x hx, hcalled]
  exact h.carriedMem_of_kept hx

theorem intact₂ (hframe : frame.Intact s.mem) (hlen : frame.words.length = 7) : frame.Intact t₂.mem :=
  (h.intact₁ hframe hlen).congr hlen fun _ hx => h.mem₂ hframe hlen (.inl hx)

theorem app₂ (hframe : frame.Intact s.mem) (hlen : frame.words.length = 7) :
    t₂.cpu.reg .rbp = below (s.cpu.reg .rsp) 4 ∧
      ByteMemory.WordsAt t₂.mem (below (s.cpu.reg .rsp) 4)
        [s.cpu.reg .rax, s.cpu.rflags, s.cpu.rip, s.cpu.reg .rbp] ∧
      ∀ r ∈ [Reg.rbx, .r12, .r13, .r14, .r15], t₂.cpu.reg r = s.cpu.reg r := by
  obtain ⟨flags, hcalled⟩ := h.called hframe hlen
  refine ⟨?_, ?_, fun r hr => ?_⟩
  · rw [h.function.reg _ (by decide), hcalled]
    exact h.entered.rbp
  · exact ByteMemory.wordsAt_congr
      (fun x hx => h.mem₂ hframe hlen (.inr (stack_in_scratch s (.inl hx)))) (by simp) h.entered.app
  · rw [h.function.reg _ ?_, hcalled]
    · have hreg := h.entered.reg r hr
      simp only [List.mem_cons, List.not_mem_nil, or_false] at hr
      rcases hr with rfl | rfl | rfl | rfl | rfl <;> exact hreg
    · revert r
      decide

/-- A system call other than `Exit` gives the application its registers back, as a function does, with the result of the
function of `syscall_table`. -/
theorem returns (hframe : frame.Intact s.mem) (hlen : frame.words.length = 7)
    (hcode : (s.cpu.reg .rax).setWidth 32 ≠ exitCode) : ∃ p, leaveSyscall alu msr t₂ = ⟨p, t₂.mem⟩ ∧
      (∀ r ∈ calleeSaved, p.reg r = s.cpu.reg r) ∧ p.rip = s.cpu.rip ∧ p.rflags = sysretFlags s.cpu.rflags ∧
      p.seg .cs = msr.appCS ∧ p.seg .ss = msr.appSS ∧ p.reg .rax = t₂.cpu.reg .rax ∧ p.reg .rdx = t₂.cpu.reg .rdx := by
  obtain ⟨hrbp, hwords, hreg⟩ := h.app₂ hframe hlen
  rw [← hrbp] at hwords
  have hpop := @run_popAppState alu t₂.mem ((t₂.cpu.set .rsp (t₂.cpu.reg .rbp + 8)).set .rsi (s.cpu.reg .rax)) _ _ _
    hwords.2
  have hif : (((t₂.cpu.set .rsp (t₂.cpu.reg .rbp + 8)).set .rsi (s.cpu.reg .rax)).reg .rsi).setWidth 32 ≠
      exitCode := by
    rwa [Processor.set_self]
  have hsp : t₂.cpu.reg .rbp + 8 + 24 = s.cpu.reg .rsp := by
    rw [hrbp]
    unfold below
    bv_omega
  unfold leaveSyscall
  rw [run_popCode hwords.1]
  dsimp only
  rw [if_neg hif, hpop]
  refine ⟨_, rfl, fun r hr => ?_, rfl, rfl, rfl, rfl, rfl, rfl⟩
  simp only [calleeSaved, List.mem_cons, List.not_mem_nil, or_false] at hr
  rcases hr with rfl | rfl | rfl | rfl | rfl | rfl | rfl
  case inr.inl => rfl
  case inr.inr.inl => exact hsp
  all_goals exact hreg _ (by decide)

/-- After `Exit`, whose function returns the stack pointer that `CallApp` saved, the code after the call of `CallApp`
goes on, with the registers that it expects back. -/
theorem exits (hframe : frame.Intact s.mem) {value : Reg → Word} {ret : Word}
    (hwords : frame.words = savedRegs.reverse.map value ++ [ret]) (hcode : (s.cpu.reg .rax).setWidth 32 = exitCode)
    (hresult : t₂.cpu.reg .rax = frame.osp) : ∃ p, leaveSyscall alu msr t₂ = ⟨p, t₂.mem⟩ ∧ p.rip = ret ∧
      p.reg .rsp = frame.osp + 56 ∧ (∀ r ∈ savedRegs, p.reg r = value r) ∧
      p.reg .rax = ((t₂.cpu.reg .rdx).setWidth 32).setWidth 64 := by
  have hlen : frame.words.length = 7 := by
    rw [hwords]
    rfl
  obtain ⟨hrbp, happ, -⟩ := h.app₂ hframe hlen
  have hsaved := (h.intact₂ hframe hlen).words
  rw [hwords, ← hresult] at hsaved
  rw [← hrbp] at happ
  have hif : (((t₂.cpu.set .rsp (t₂.cpu.reg .rbp + 8)).set .rsi (s.cpu.reg .rax)).reg .rsi).setWidth 32 =
      exitCode := by
    rwa [Processor.set_self]
  unfold leaveSyscall
  rw [run_popCode happ.1]
  dsimp only
  rw [if_pos hif, run_append]
  obtain ⟨p, hrun, hrip, hrsp, hreg, hrax⟩ := @run_exitApp alu t₂.mem
    ((((t₂.cpu.set .rsp (t₂.cpu.reg .rbp + 8)).set .rsi (s.cpu.reg .rax)).set .rdi (t₂.cpu.reg .rax)).set .rsi
      (((t₂.cpu.reg .rdx).setWidth 32).setWidth 64)) value ret hsaved
  refine ⟨p, hrun, hrip, ?_, hreg, ?_⟩
  · rw [hrsp, ← hresult]
    rfl
  · rw [hrax, Processor.set_self]
    simp

end SyscallRun

/-! ## The run of an application -/

inductive AppAction where
  /-- The application runs up to `t`; so do interrupts and other tasks. -/
  | work (t : State)
  | syscall (t₁ t₂ : State)

inductive AppStep (alu : Word → Word → Word) (msr : SyscallMSRs) (frame : AppFrame) : State → AppAction → State → Prop
  | work {s t : State} (hmem : ∀ x, frame.Keeps x → t.mem x = s.mem x) : AppStep alu msr frame s (.work t) t
  | syscall {s t₁ t₂ : State} (h : SyscallRun alu msr frame s t₁ t₂)
      (hcode : (s.cpu.reg .rax).setWidth 32 ≠ exitCode) :
    AppStep alu msr frame s (.syscall t₁ t₂) (leaveSyscall alu msr t₂)

theorem AppStep.intact {e : AppAction} (hlen : frame.words.length = 7) (hframe : frame.Intact s.mem)
    (h : AppStep alu msr frame s e t) : frame.Intact t.mem := by
  cases h with
  | work hmem => exact hframe.congr hlen hmem
  | syscall h hcode =>
    obtain ⟨p, hleave, -⟩ := h.returns hframe hlen hcode
    rw [hleave]
    exact h.intact₂ hframe hlen

variable {es : List AppAction}

/-- While the application runs, what `CallApp` has saved stays. -/
theorem intact_run (hring : State.ring (s.cpu.seg .cs) < State.ring ((s.cpu.reg .rdx + 8).setWidth 16))
    (hptr : Apart (s.cpu.reg .r9) 8 (below (s.cpu.reg .rsp) 10) 88)
    (hrun : Run (AppStep alu msr (callFrame s)) (run alu callApp s) es t) : (callFrame s).Intact t.mem :=
  hrun.invariant (fun t => (callFrame s).Intact t.mem) (fun _ _ _ hs hstep => hstep.intact rfl hs)
    (run_callApp hring hptr).2

/-- However the application ran, its system call `Exit` returns from the call of `CallApp`, which has started it. -/
theorem callApp_returns (hring : State.ring (s.cpu.seg .cs) < State.ring ((s.cpu.reg .rdx + 8).setWidth 16))
    (hptr : Apart (s.cpu.reg .r9) 8 (below (s.cpu.reg .rsp) 10) 88)
    (hrun : Run (AppStep alu msr (callFrame s)) (run alu callApp s) es t)
    (hcall : SyscallRun alu msr (callFrame s) t t₁ t₂) (hcode : (t.cpu.reg .rax).setWidth 32 = exitCode)
    (hresult : t₂.cpu.reg .rax = t₂.mem.loadWord (s.cpu.reg .r9)) :
    ∃ p, leaveSyscall alu msr t₂ = ⟨p, t₂.mem⟩ ∧ p.rip = s.top ∧ p.reg .rsp = s.cpu.reg .rsp + 8 ∧
      (∀ r ∈ savedRegs, p.reg r = s.cpu.reg r) ∧ p.reg .rax = ((t₂.cpu.reg .rdx).setWidth 32).setWidth 64 := by
  have hframe := intact_run hring hptr hrun
  have hosp : t₂.cpu.reg .rax = (callFrame s).osp := hresult.trans (hcall.intact₂ hframe rfl).ptr
  obtain ⟨p, hleave, hrip, hrsp, hreg, hrax⟩ := hcall.exits hframe rfl hcode hosp
  refine ⟨p, hleave, hrip, hrsp.trans ?_, hreg, hrax⟩
  unfold callFrame below
  bv_omega

/-! ## An application that makes one system call -/

/-- The call `CallApp(0, 0, 3 << 3 | 3, 0x400000, 0x900000, 0x1000)` with the stack at 0x5000. -/
def callingApp : State where
  cpu :=
    { reg := fun
        | .rdx => 0x1b
        | .rcx => 0x400000
        | .r8 => 0x900000
        | .r9 => 0x1000
        | .rsp => 0x5000
        | _ => 0
      rip := 0x3000
      rflags := 0x202
      cr3 := 0
      seg := fun _ => 8
      fx := fun _ => 0 }
  mem _ := 0

def keepFlags : Word → Word → Word := fun flags _ => flags

def exampleMSRs : SyscallMSRs where
  entry := 0x2000
  kernelCS := 8
  kernelSS := 16
  appCS := 0x23
  appSS := 0x1b

/-- The application has put a code into `rax`. -/
def beforeSyscall (code : Word) : State := (run keepFlags callApp callingApp).set .rax code

/-- A function has returned the word at `a`. -/
def returnWord (s : State) (a : Address) : State := s.set .rax (s.mem.loadWord a)

/-- `GetCurrentTaskOSStackPointer` has returned. -/
def afterPointer (code : Word) : State :=
  returnWord (run keepFlags enterSyscall (enterRing0 exampleMSRs (beforeSyscall code))) (callFrame callingApp).ptr

/-- A function that returns `os_stack_ptr`, as the one of `Exit` does. -/
def afterFunction (code : Word) : State :=
  returnWord (run keepFlags (carryScratch ++ toOSStack) (afterPointer code)) (callFrame callingApp).ptr

theorem called_returnWord (kept : Address → Prop) (s : State) (a : Address) : Called kept s (returnWord s a) where
  reg r hr := by
    apply Processor.set_of_ne
    rintro rfl
    revert hr
    decide
  mem _ _ := rfl

theorem returnWord_rax (s : State) (a : Address) : (returnWord s a).cpu.reg .rax = (returnWord s a).mem.loadWord a :=
  Processor.set_self ..

theorem callingApp_ring :
    State.ring (callingApp.cpu.seg .cs) < State.ring ((callingApp.cpu.reg .rdx + 8).setWidth 16) := by decide

theorem callingApp_ptr : Apart (callingApp.cpu.reg .r9) 8 (below (callingApp.cpu.reg .rsp) 10) 88 := by
  intro x hx hy
  unfold InBlock below callingApp at *
  simp at *
  bv_omega

theorem scratch_beforeSyscall (code : Word) : scratch (beforeSyscall code) = 0x8fffd0 := by
  obtain ⟨⟨flags, hcpu⟩, -⟩ := @run_callApp keepFlags callingApp callingApp_ring callingApp_ptr
  have hrsp : (beforeSyscall code).cpu.reg .rsp = 0x900000 := by
    unfold beforeSyscall State.set
    rw [Processor.set_of_ne _ _ (by decide), hcpu]
    rfl
  unfold scratch
  rw [hrsp]
  decide

theorem syscallRun_example (code : Word) : SyscallRun keepFlags exampleMSRs (callFrame callingApp) (beforeSyscall code)
    (afterPointer code) (afterFunction code) where
  pointer := called_returnWord ..
  osp := returnWord_rax ..
  function := called_returnWord ..
  stack x hx hkeeps := by
    rw [scratch_beforeSyscall] at hx
    unfold AppFrame.Keeps InBlock callFrame callingApp below at *
    simp at *
    bv_omega
  carried x hx hkeeps := by
    rw [scratch_beforeSyscall] at hkeeps
    unfold AppFrame.Keeps InBlock callFrame callingApp below at *
    simp at *
    bv_omega

theorem run_beforeSyscall (code : Word) : Run (AppStep keepFlags exampleMSRs (callFrame callingApp))
    (run keepFlags callApp callingApp) [.work (beforeSyscall code)] (beforeSyscall code) :=
  .cons (.work fun _ _ => rfl) (.nil _)

theorem callingApp_exit_returns : ∃ p, leaveSyscall keepFlags exampleMSRs (afterFunction 0x80000002) =
      ⟨p, (afterFunction 0x80000002).mem⟩ ∧
    p.rip = callingApp.top ∧ p.reg .rsp = callingApp.cpu.reg .rsp + 8 ∧
    (∀ r ∈ savedRegs, p.reg r = callingApp.cpu.reg r) ∧
    p.reg .rax = (((afterFunction 0x80000002).cpu.reg .rdx).setWidth 32).setWidth 64 := by
  apply callApp_returns callingApp_ring callingApp_ptr (run_beforeSyscall _) (syscallRun_example _)
  · rw [beforeSyscall, State.set, Processor.set_self]
    decide
  · exact returnWord_rax ..

end MikanSaos.Assembly
