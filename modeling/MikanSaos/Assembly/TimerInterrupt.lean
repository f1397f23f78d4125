import MikanSaos.Assembly.SwitchContext

/-!
# TimerInterrupt — the context that the timer interrupt makes

The processor switches to the stack of the interrupt and pushes a frame.  `IntHandlerLAPICTimer` makes a `TaskContext`
of the interrupted processor below it.  When `LAPICTimerOnInterrupt` returns, the handler restores the registers from
it, and `iretq` the rest from the frame.
-/

open Reasoning Reasoning.X64

namespace MikanSaos.Assembly

open TaskContext

/-- An entry of the IDT with a stack of its own, and what the processor sets when it delivers the interrupt. -/
structure Gate where
  handler : Word
  /-- The interrupt stack, aligned to 16 bytes -/
  stack : Address
  cs : BitVec 16
  ss : BitVec 16
  rflags : Word → Word

/-- `ss`, `rsp`, `rflags`, `cs` and `rip`, the order of the pushes. -/
def interruptFrame (p : Processor) : List Word :=
  [(p.seg .ss).setWidth 64, p.reg .rsp, p.rflags, (p.seg .cs).setWidth 64, p.rip]

/-- The processor delivers an interrupt. -/
def deliver (gate : Gate) (s : State) : State where
  cpu := { s.cpu.set .rsp (below gate.stack 5) with
    rip := gate.handler
    rflags := gate.rflags s.cpu.rflags
    seg := Function.update (Function.update s.cpu.seg .cs gate.cs) .ss gate.ss }
  mem := s.mem.pushWords gate.stack (interruptFrame s.cpu)

/-! `IntHandlerLAPICTimer`, down to the call of `LAPICTimerOnInterrupt`. -/

def enterHandler : List Instr := [
  .push (.reg .rbp),
  .mov .rbp .rsp,

  .subImm .rsp 512,
  .fxsave .rsp 0]

/-- `rbp` and `rsp` are those of the interrupted task. -/
def regOperands : List Operand := [
  .reg .r15,
  .reg .r14,
  .reg .r13,
  .reg .r12,
  .reg .r11,
  .reg .r10,
  .reg .r9,
  .reg .r8,
  .mem .rbp 0,
  .mem .rbp 0x20,
  .reg .rsi,
  .reg .rdi,
  .reg .rdx,
  .reg .rcx,
  .reg .rbx,
  .reg .rax]

def readSelectors : List Instr := [
  .movFromSeg .rax .fs,
  .movFromSeg .rbx .gs,
  .movFromCr3 .rcx]

def stateOperands : List Operand := [
  .reg .rbx,
  .reg .rax,
  .mem .rbp 0x28,
  .mem .rbp 0x10,
  .reg .rbp,
  .mem .rbp 0x18,
  .mem .rbp 0x08,
  .reg .rcx]

def makeContext : List Instr :=
  enterHandler ++ (regOperands.map .push ++ (readSelectors ++ (stateOperands.map .push ++ [.mov .rdi .rsp])))

/-! `IntHandlerLAPICTimer` after the call. -/

def lowRegs : List Reg := [.rax, .rbx, .rcx, .rdx, .rdi, .rsi]

def highRegs : List Reg := [.r8, .r9, .r10, .r11, .r12, .r13, .r14, .r15]

def popFrame : List Instr := [
  .fxrstor .rsp 0,

  .mov .rsp .rbp,
  .pop .rbp,
  .iretq]

/-- Not popped are the fields from `cr3` to `gs`, and `rsp` and `rbp`. -/
def leaveHandler : List Instr :=
  .addImm .rsp (8 * 8) :: (lowRegs.map .pop ++ (.addImm .rsp 16 :: (highRegs.map .pop ++ popFrame)))

variable {alu : Word → Word → Word} {s : State} {mem mem' : ByteMemory} {p q : Processor} {gate : Gate}

/-! ## Making the context -/

/-- The context is the 22 words and the vector registers below the frame. -/
def handlerContext (gate : Gate) : Address := gate.stack - 752

/-- The frame of the interrupt with `rbp` below it. -/
def savedFrame (p : Processor) : List Word := interruptFrame p ++ [p.reg .rbp]

/-- The registers in the handler after its `fxsave`. -/
def enteredCpu (gate : Gate) (p : Processor) (flags : Word) : Processor where
  reg := Function.update (Function.update p.reg .rbp (below gate.stack 6)) .rsp (below gate.stack 70)
  rip := gate.handler
  rflags := flags
  cr3 := p.cr3
  seg := Function.update (Function.update p.seg .cs gate.cs) .ss gate.ss
  fx := p.fx

def enteredMem (gate : Gate) (s : State) : ByteMemory :=
  State.storeFx (s.mem.pushWords gate.stack (savedFrame s.cpu)) (below gate.stack 70) s.cpu.fx

theorem run_enterHandler : ∃ flags, run alu enterHandler (deliver gate s) =
    ⟨enteredCpu gate s.cpu flags, enteredMem gate s⟩ := by
  have hsp : below gate.stack 5 - 8#64 = below gate.stack 6 := by
    unfold below
    bv_omega
  have hsp' : below gate.stack 6 - 512#64 = below gate.stack 70 := by
    unfold below
    bv_omega
  refine ⟨alu (gate.rflags s.cpu.rflags) (below gate.stack 70), ?_⟩
  rw [enteredMem, savedFrame, ByteMemory.pushWords_append]
  simp [enterHandler, enteredCpu, run, exec, deliver, State.set, Processor.set, State.push, State.value, State.setFlags,
    State.addr, interruptFrame, ByteMemory.pushWords, hsp, hsp']
  funext r
  cases r <;> rfl

theorem wordsAt_savedFrame :
    ByteMemory.WordsAt (enteredMem gate s) (below gate.stack 6) (savedFrame s.cpu).reverse := by
  have hpushed : ByteMemory.WordsAt (s.mem.pushWords gate.stack (savedFrame s.cpu)) (below gate.stack 6)
      ((savedFrame s.cpu).reverse ++ []) := ByteMemory.wordsAt_pushWords (by simp [savedFrame, interruptFrame]) trivial
  rw [List.append_nil] at hpushed
  unfold enteredMem State.storeFx
  refine ByteMemory.wordsAt_congr (fun x hx => ByteMemory.storeBlock_of_not_in ?_)
    (by simp [savedFrame, interruptFrame]) hpushed
  have hlen : (savedFrame s.cpu).reverse.length = 6 := rfl
  rw [hlen] at hx
  unfold InBlock below at *
  bv_omega

/-- The words of the context, the last one pushed first. -/
def contextWords (p : Processor) (rbp : Word) : List Word := [
  p.cr3, p.rip, p.rflags, rbp,
  (p.seg .cs).setWidth 64, (p.seg .ss).setWidth 64,
  withSelector (p.reg .rax) (p.seg .fs), withSelector (p.reg .rbx) (p.seg .gs),
  p.reg .rax, p.reg .rbx, p.reg .rcx, p.reg .rdx, p.reg .rdi, p.reg .rsi, p.reg .rsp, p.reg .rbp,
  p.reg .r8, p.reg .r9, p.reg .r10, p.reg .r11, p.reg .r12, p.reg .r13, p.reg .r14, p.reg .r15]

theorem kept_mem {base : Reg} {off n k : Nat} (hbase : base ≠ .rsp) (hk : off + 8 ≤ k)
    (h : Apart (below (s.cpu.reg .rsp) n) (8 * n) (s.cpu.reg base) k) (hk' : k < 2 ^ 64) :
   (Operand.mem base off).Kept s n := ⟨hbase, fun x hx hin => h x hx (hin.of_sub hk hk')⟩

/-- In the order of the pushes; `q` is the processor in the handler. -/
def regWords (p q : Processor) : List Word :=
  [q.reg .r15, q.reg .r14, q.reg .r13, q.reg .r12, q.reg .r11, q.reg .r10, q.reg .r9, q.reg .r8,
    p.reg .rbp, p.reg .rsp, q.reg .rsi, q.reg .rdi, q.reg .rdx, q.reg .rcx, q.reg .rbx, q.reg .rax]

def stateWords (p q : Processor) (bp : Address) : List Word :=
  [q.reg .rbx, q.reg .rax, (p.seg .ss).setWidth 64, (p.seg .cs).setWidth 64, bp, p.rflags, p.rip, q.reg .rcx]

theorem run_regOperands {bp sp : Address} (hbp : q.reg .rbp = bp) (hsp : q.reg .rsp = sp)
    (hframe : ByteMemory.WordsAt mem bp (savedFrame p).reverse)
    (happart : Apart (below sp 16) 128 bp 48) :
    run alu (regOperands.map .push) ⟨q, mem⟩ = ⟨q.set .rsp (below sp 16), mem.pushWords sp (regWords p q)⟩ := by
  subst hbp hsp
  have hkept : ∀ op ∈ regOperands, op.Kept ⟨q, mem⟩ regOperands.length := by
    have hlen : regOperands.length = 16 := rfl
    rw [hlen]
    simp only [regOperands, List.forall_mem_cons]
    refine ⟨?_, ?_, ?_, ?_, ?_, ?_, ?_, ?_, ?_, ?_, ?_, ?_, ?_, ?_, ?_, ?_, List.forall_mem_nil _⟩
    case refine_9 => exact kept_mem (by decide) (by decide) happart (by decide)
    case refine_10 => exact kept_mem (by decide) (by decide) happart (by decide)
    all_goals intro h; cases h
  have hrbp : mem.loadWord (q.reg .rbp + BitVec.ofNat 64 0) = p.reg .rbp := hframe.get (i := 0) rfl
  have hrsp : mem.loadWord (q.reg .rbp + BitVec.ofNat 64 0x20) = p.reg .rsp := hframe.get (i := 4) rfl
  rw [run_pushes (by decide) hkept]
  simp only [regOperands, List.map_cons, List.map_nil, State.value, State.addr, hrbp, hrsp]
  rfl

theorem run_readSelectors : run alu readSelectors ⟨q, mem⟩ =
    ⟨((q.set .rax (withSelector (q.reg .rax) (q.seg .fs))).set .rbx (withSelector (q.reg .rbx) (q.seg .gs))).set .rcx
      q.cr3, mem⟩ := by
  simp [readSelectors, run, exec, State.set, Processor.set, withSelector]

theorem run_stateOperands {bp sp : Address} (hbp : q.reg .rbp = bp) (hsp : q.reg .rsp = sp)
    (hframe : ByteMemory.WordsAt mem bp (savedFrame p).reverse)
    (happart : Apart (below sp 8) 64 bp 48) :
    run alu (stateOperands.map .push) ⟨q, mem⟩ = ⟨q.set .rsp (below sp 8), mem.pushWords sp (stateWords p q bp)⟩ := by
  subst hbp hsp
  have hkept : ∀ op ∈ stateOperands, op.Kept ⟨q, mem⟩ stateOperands.length := by
    have hlen : stateOperands.length = 8 := rfl
    rw [hlen]
    simp only [stateOperands, List.forall_mem_cons]
    refine ⟨?_, ?_, ?_, ?_, ?_, ?_, ?_, ?_, List.forall_mem_nil _⟩
    case refine_1 | refine_2 | refine_5 | refine_8 => intro h; cases h
    all_goals exact kept_mem (by decide) (by decide) happart (by decide)
  have hss : mem.loadWord (q.reg .rbp + BitVec.ofNat 64 0x28) = (p.seg .ss).setWidth 64 := hframe.get (i := 5) rfl
  have hcs : mem.loadWord (q.reg .rbp + BitVec.ofNat 64 0x10) = (p.seg .cs).setWidth 64 := hframe.get (i := 2) rfl
  have hflags : mem.loadWord (q.reg .rbp + BitVec.ofNat 64 0x18) = p.rflags := hframe.get (i := 3) rfl
  have hrip : mem.loadWord (q.reg .rbp + BitVec.ofNat 64 0x08) = p.rip := hframe.get (i := 1) rfl
  rw [run_pushes (by decide) hkept]
  simp only [stateOperands, List.map_cons, List.map_nil, State.value, State.addr, hss, hcs, hflags, hrip]
  rfl

/-- The memory has the context, the vector registers and the frame of the processor below the stack of the interrupt. -/
structure InHandler (gate : Gate) (p : Processor) (mem : ByteMemory) : Prop where
  context : ByteMemory.WordsAt mem (below gate.stack 94) (contextWords p (below gate.stack 6))
  fx : State.loadFx mem (below gate.stack 70) = p.fx
  frame : ByteMemory.WordsAt mem (below gate.stack 6) (savedFrame p).reverse

theorem InHandler.congr (h : InHandler gate p mem) (hsame : ∀ x, InBlock x (below gate.stack 94) 752 → mem' x = mem x) :
    InHandler gate p mem' where
  context := by
    refine ByteMemory.wordsAt_congr (fun x hx => hsame x ?_) (by simp [contextWords]) h.context
    exact hx.trans_le (by simp [contextWords])
  fx := by
    rw [← h.fx]
    funext i
    apply hsame
    have hi := i.isLt
    unfold InBlock below
    bv_omega
  frame := by
    refine ByteMemory.wordsAt_congr (fun x hx => hsame x ?_) (by simp [savedFrame, interruptFrame]) h.frame
    have hlen : (savedFrame p).reverse.length = 6 := rfl
    rw [hlen] at hx
    unfold InBlock below at *
    bv_omega

theorem InHandler.holds (h : InHandler gate p mem) : Holds mem (below gate.stack 94) p where
  cr3 := h.context.get (i := 0) rfl
  rip := h.context.get (i := 1) rfl
  rflags := h.context.get (i := 2) rfl
  seg seg := by
    cases seg
    case cs => 
      rw [show segOffset .cs = 8 * 4 from rfl, h.context.get (i := 4) rfl]
      simp
    case ss => 
      rw [show segOffset .ss = 8 * 5 from rfl, h.context.get (i := 5) rfl]
      simp
    case fs =>
      rw [show segOffset .fs = 8 * 6 from rfl, h.context.get (i := 6) rfl, setWidth_withSelector]
    case gs =>
      rw [show segOffset .gs = 8 * 7 from rfl, h.context.get (i := 7) rfl, setWidth_withSelector]
  reg r := by
    have hoff : regOffset r = 8 * (regOffset r / 8) := by cases r <;> rfl
    rw [hoff]
    apply h.context.get
    cases r <;> rfl
  fx := by
    have heq : below gate.stack 94 + BitVec.ofNat 64 0xc0 = below gate.stack 70 := by
      unfold below
      bv_omega
    rw [heq, h.fx]


/-- What the handler relies on when the call returns. -/
structure AtCall (gate : Gate) (p q : Processor) : Prop where
  rsp : q.reg .rsp = below gate.stack 94
  rbp : q.reg .rbp = below gate.stack 6
  cr3 : q.cr3 = p.cr3
  fs : q.seg .fs = p.seg .fs
  gs : q.seg .gs = p.seg .gs

theorem enteredMem_of_not_in {x : Address} (h : ¬ InBlock x (below gate.stack 70) 560) :
    enteredMem gate s x = s.mem x := by
  have hfx : ¬ InBlock x (below gate.stack 70) 512 := fun hin => h (hin.trans_le (by decide))
  have hframe : ¬ InBlock x (below gate.stack 6) 48 := by
    contrapose! h
    unfold InBlock below at *
    bv_omega
  unfold enteredMem State.storeFx
  rw [ByteMemory.storeBlock_of_not_in hfx]
  exact ByteMemory.pushWords_of_not_in (by simp [savedFrame, interruptFrame]) hframe

/-- The words that the handler pushes below the vector registers. -/
theorem enteredCpu_rsp (gate : Gate) (p : Processor) (flags : Word) :
    (enteredCpu gate p flags).reg .rsp = below gate.stack 70 := by
  simp [enteredCpu]

theorem enteredCpu_rbp (gate : Gate) (p : Processor) (flags : Word) :
    (enteredCpu gate p flags).reg .rbp = below gate.stack 6 := by
  simp [enteredCpu]

/-- The processor when `LAPICTimerOnInterrupt` is called. -/
def calledCpu (gate : Gate) (p : Processor) (flags : Word) : Processor :=
  (((((enteredCpu gate p flags).set .rax (withSelector (p.reg .rax) (p.seg .fs))).set .rbx
    (withSelector (p.reg .rbx) (p.seg .gs))).set .rcx p.cr3).set .rsp (below gate.stack 94)).set .rdi
    (below gate.stack 94)

theorem run_pushContext (flags : Word) :
    run alu (regOperands.map .push ++ (readSelectors ++ (stateOperands.map .push ++ [.mov .rdi .rsp])))
      ⟨enteredCpu gate s.cpu flags, enteredMem gate s⟩ =
      ⟨calledCpu gate s.cpu flags,
        (enteredMem gate s).pushWords (below gate.stack 70) (contextWords s.cpu (below gate.stack 6)).reverse⟩ := by
  have happart : Apart (below (below gate.stack 70) 16) 128 (below gate.stack 6) 48 := by
    intro x hx
    unfold InBlock below at *
    bv_omega
  have happart' : Apart (below (below gate.stack 86) 8) 64 (below gate.stack 6) 48 := by
    intro x hx
    unfold InBlock below at *
    bv_omega
  have hframe := @wordsAt_savedFrame s gate
  have hframe' : ByteMemory.WordsAt ((enteredMem gate s).pushWords (below gate.stack 70)
      (regWords s.cpu (enteredCpu gate s.cpu flags))) (below gate.stack 6) (savedFrame s.cpu).reverse := by
    refine ByteMemory.wordsAt_congr (fun x hx => ?_) (by simp [savedFrame, interruptFrame]) hframe
    exact ByteMemory.pushWords_of_not_in (by simp [regWords]) fun hin => happart x hin hx
  rw [run_append, run_regOperands (enteredCpu_rbp ..) (enteredCpu_rsp ..) hframe happart, run_append,
    run_readSelectors, run_append, below_below]
  rw [@run_stateOperands alu _ _ _ (below gate.stack 6) (below gate.stack 86) (by simp [Processor.set, enteredCpu])
    (by simp [Processor.set]) hframe' happart', below_below]
  have hwords : (contextWords s.cpu (below gate.stack 6)).reverse = regWords s.cpu (enteredCpu gate s.cpu flags) ++
      stateWords s.cpu (calledCpu gate s.cpu flags) (below gate.stack 6) := by
    simp [contextWords, regWords, stateWords, enteredCpu, calledCpu, Processor.set]
  have hlen : below (below gate.stack 70) (regWords s.cpu (enteredCpu gate s.cpu flags)).length = below gate.stack 86 :=
    below_below ..
  rw [hwords, ByteMemory.pushWords_append, hlen]
  simp [run, exec, stateWords, calledCpu, enteredCpu, Processor.set, State.set]
  funext r
  cases r <;> simp

theorem run_makeContext (alu : Word → Word → Word) (gate : Gate) (s : State) : ∃ flags,
    (run alu makeContext (deliver gate s)).cpu = calledCpu gate s.cpu flags ∧
      InHandler gate s.cpu (run alu makeContext (deliver gate s)).mem ∧
      ∀ x, ¬ InBlock x (below gate.stack 94) 752 → (run alu makeContext (deliver gate s)).mem x = s.mem x := by
  obtain ⟨flags, henter⟩ := @run_enterHandler alu s gate
  have hpushed : ∀ x, ¬ InBlock x (below gate.stack 94) 192 → (enteredMem gate s).pushWords (below gate.stack 70)
      (contextWords s.cpu (below gate.stack 6)).reverse x = enteredMem gate s x := by
    intro x hx
    apply ByteMemory.pushWords_of_not_in (by simp [contextWords])
    rwa [below_below]
  rw [makeContext, run_append, henter, run_pushContext]
  refine ⟨flags, rfl, ⟨?_, ?_, ?_⟩, fun x hx => ?_⟩
  · have hwords : ByteMemory.WordsAt
        ((enteredMem gate s).pushWords (below gate.stack 70) (contextWords s.cpu (below gate.stack 6)).reverse)
        (below (below gate.stack 70) 24) ((contextWords s.cpu (below gate.stack 6)).reverse.reverse ++ []) :=
      ByteMemory.wordsAt_pushWords (by simp [contextWords]) trivial
    rwa [below_below, List.reverse_reverse, List.append_nil] at hwords
  · rw [← State.loadFx_storeFx (s.mem.pushWords gate.stack (savedFrame s.cpu)) (below gate.stack 70) s.cpu.fx]
    funext i
    apply hpushed
    have hi := i.isLt
    unfold InBlock below
    bv_omega
  · refine ByteMemory.wordsAt_congr (fun x hx => hpushed x ?_) (by simp [savedFrame, interruptFrame])
      wordsAt_savedFrame
    have hlen : (savedFrame s.cpu).reverse.length = 6 := rfl
    rw [hlen] at hx
    unfold InBlock below at *
    bv_omega
  · refine (hpushed x fun h => hx (h.trans_le (by decide))).trans (enteredMem_of_not_in fun h => hx ?_)
    unfold InBlock below at *
    bv_omega

/-! ## Leaving the handler -/

/-- The processor when all registers of the context are popped. -/
structure Popped (gate : Gate) (p q : Processor) : Prop where
  rsp : q.reg .rsp = below gate.stack 70
  rbp : q.reg .rbp = below gate.stack 6
  reg : ∀ r, r ≠ .rsp → r ≠ .rbp → q.reg r = p.reg r
  cr3 : q.cr3 = p.cr3
  fs : q.seg .fs = p.seg .fs
  gs : q.seg .gs = p.seg .gs

theorem run_popFrame (h : InHandler gate p mem) (hpop : Popped gate p q) :
    run alu popFrame ⟨q, mem⟩ = ⟨p, mem⟩ := by
  have hfx := h.fx
  have hframe : ByteMemory.WordsAt mem (below gate.stack 6) [p.reg .rbp, p.rip, (p.seg .cs).setWidth 64, p.rflags,
      p.reg .rsp, (p.seg .ss).setWidth 64] := h.frame
  obtain ⟨hrbp, hip, hcs, hflags, hsp, hss, -⟩ := hframe
  rw [← hpop.rsp] at hfx
  rw [← hpop.rbp] at hrbp hip hcs hflags hsp hss
  simp [popFrame, run, exec, State.set, State.setFlags, State.setSeg, State.setRip, State.drop, State.top,
    Processor.set, State.addr, hfx]
  apply Processor.ext 
  · funext r
    have hreg := hpop.reg r
    cases r
    case rsp => simpa using hsp
    case rbp => simpa using hrbp
    all_goals simpa using hreg
  · simpa using hip
  · simpa using hflags
  · exact hpop.cr3
  · funext seg
    cases seg
    case cs => simp [show (8 : Word) = 8#64 from rfl] at hcs; simp [hcs]
    case ss => simp at hss; simp [hss]
    case fs => simpa using hpop.fs
    case gs => simpa using hpop.gs
  · rfl

theorem run_popRegs (h : InHandler gate p mem) (hcall : AtCall gate p q) :
    ∃ t, Popped gate p t ∧ run alu leaveHandler ⟨q, mem⟩ = run alu popFrame ⟨t, mem⟩ := by
  obtain ⟨hrsp, hrbp, hcr3, hfs, hgs⟩ := hcall
  have hwords : ByteMemory.WordsAt mem (below gate.stack 94) ((contextWords p (below gate.stack 6)).take 8 ++
      (lowRegs.map p.reg ++ ([p.reg .rsp, p.reg .rbp] ++ highRegs.map p.reg))) := h.context
  have hlow := hwords.append_right
  have hhigh := hlow.append_right.append_right
  obtain ⟨q₁, hrun₁, hpops₁⟩ := @run_skip_pops alu q mem lowRegs p.reg (8 * 8)
    (.addImm .rsp 16 :: (highRegs.map .pop ++ popFrame)) (by decide) (by rw [hrsp]; exact hlow.append_left)
  have hsp₁ : q₁.reg .rsp + 16 = below gate.stack 94 + BitVec.ofNat 64 128 := by
    rw [hpops₁.rsp, Processor.set_self, hrsp, show lowRegs.length = 6 from rfl]
    bv_omega
  have hreg₁ : ∀ r, r ≠ .rsp → q₁.reg r = if r ∈ lowRegs then p.reg r else q.reg r := by
    intro r hr
    rw [hpops₁.reg r hr, Processor.set_of_ne _ _ hr]
  obtain ⟨t, hrun, hpops⟩ := @run_skip_pops alu q₁ mem highRegs p.reg 16 popFrame (by decide) (by
    rw [hsp₁]
    rwa [BitVec.add_assoc, BitVec.add_assoc] at hhigh)
  have hreg : ∀ r, r ≠ .rsp → t.reg r = if r ∈ highRegs then p.reg r else q₁.reg r := by
    intro r hr
    rw [hpops.reg r hr, Processor.set_of_ne _ _ hr]
  refine ⟨t, ⟨?_, ?_, ?_, ?_, ?_, ?_⟩, hrun₁.trans hrun⟩
  · rw [hpops.rsp, Processor.set_self, hsp₁, show highRegs.length = 8 from rfl]
    unfold below
    bv_omega
  · rw [hreg _ (by decide), hreg₁ _ (by decide)]
    exact hrbp
  · intro r hr hr'
    rw [hreg r hr, hreg₁ r hr]
    cases r <;> first | rfl | contradiction
  · exact (hpops.cr3.trans hpops₁.cr3).trans hcr3
  · exact (congrFun (hpops.seg.trans hpops₁.seg) .fs).trans hfs
  · exact (congrFun (hpops.seg.trans hpops₁.seg) .gs).trans hgs

/-- The handler that returns gives the interrupted processor back. -/
theorem run_leaveHandler (h : InHandler gate p mem) (hcall : AtCall gate p q) :
    run alu leaveHandler ⟨q, mem⟩ = ⟨p, mem⟩ := by
  obtain ⟨t, hpop, hrun⟩ := run_popRegs h hcall
  rw [hrun, run_popFrame h hpop]

end MikanSaos.Assembly
