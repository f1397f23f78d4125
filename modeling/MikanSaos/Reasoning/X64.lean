import MikanSaos.Reasoning.ByteMemory
import Mathlib.Logic.Function.Basic

/-!
# X64 — a processor, and straight runs of its instructions

The instructions are those that move registers to and from memory, push and pop, and change the segment and control
registers.  What an addition does to the flags is left open: `alu` is any function of the old flags and the result.
-/

namespace Reasoning.X64

inductive Reg where
  | rax | rbx | rcx | rdx | rdi | rsi | rsp | rbp | r8 | r9 | r10 | r11 | r12 | r13 | r14 | r15
  deriving DecidableEq, Repr

inductive Seg where
  | cs | ss | fs | gs
  deriving DecidableEq, Repr

@[ext]
structure Processor where
  reg : Reg → Word
  rip : Word
  rflags : Word
  cr3 : Word
  seg : Seg → BitVec 16
  /-- The image of the vector registers that `fxsave` stores. -/
  fx : Fin 512 → BitVec 8

@[ext]
structure State where
  cpu : Processor
  mem : ByteMemory

/-- What `push` pushes. -/
inductive Operand where
  | reg (r : Reg)
  /-- `qword [base + off]` -/
  | mem (base : Reg) (off : Nat)

inductive Instr where
  | mov (dst src : Reg)
  /-- The low halves; the upper half of `dst` becomes zero. -/
  | mov32 (dst src : Reg)
  /-- `mov dst, [base + off]` -/
  | load (dst base : Reg) (off : Nat)
  /-- `mov [base + off], src` -/
  | store (base : Reg) (off : Nat) (src : Reg)
  | lea (dst base : Reg) (off : Nat)
  | push (src : Operand)
  | pop (dst : Reg)
  | popMem (base : Reg) (off : Nat)
  | addImm (dst : Reg) (n : Word)
  | subImm (dst : Reg) (n : Word)
  | andImm (dst : Reg) (mask : Word)
  | andImm32 (dst : Reg) (mask : BitVec 32)
  /-- `mov ax, fs`: the low 16 bits only -/
  | movFromSeg (dst : Reg) (seg : Seg)
  | movToSeg (seg : Seg) (src : Reg)
  | movFromCr3 (dst : Reg)
  | movToCr3 (src : Reg)
  | pushfq
  | cli
  | sti
  | fxsave (base : Reg) (off : Nat)
  | fxrstor (base : Reg) (off : Nat)
  | ret
  /-- A far return; to an outer ring it pops the stack, too. -/
  | retf
  | iretq

/-! ## What the instructions do -/

def Processor.set (p : Processor) (r : Reg) (v : Word) : Processor := { p with reg := Function.update p.reg r v }

/-- The registers get the words, one each. -/
def Processor.setAll (p : Processor) : List Reg → List Word → Processor
  | r :: regs, v :: words => (p.set r v).setAll regs words
  | _, _ => p

namespace State

def set (s : State) (r : Reg) (v : Word) : State := { s with cpu := s.cpu.set r v }

def addr (s : State) (base : Reg) (off : Nat) : Address := s.cpu.reg base + BitVec.ofNat 64 off

def push (s : State) (v : Word) : State :=
  { s.set .rsp (s.cpu.reg .rsp - 8) with mem := s.mem.storeWord (s.cpu.reg .rsp - 8) v }

def value (s : State) : Operand → Word
  | .reg r => s.cpu.reg r
  | .mem base off => s.mem.loadWord (s.addr base off)

/-- The word on top of the stack. -/
def top (s : State) : Word := s.mem.loadWord (s.cpu.reg .rsp)

def drop (s : State) : State := s.set .rsp (s.cpu.reg .rsp + 8)

def setRip (s : State) (v : Word) : State := { s with cpu := { s.cpu with rip := v } }

def setFlags (s : State) (v : Word) : State := { s with cpu := { s.cpu with rflags := v } }

def setSeg (s : State) (seg : Seg) (v : Word) : State :=
  { s with cpu := { s.cpu with seg := Function.update s.cpu.seg seg (v.setWidth 16) } }

def interruptFlag : Word := 1 <<< 9

/-- The ring that a selector of the code segment is for. -/
def ring (cs : BitVec 16) : BitVec 16 := cs &&& 3

def loadFx (mem : ByteMemory) (a : Address) : Fin 512 → BitVec 8 := fun i => mem (a + BitVec.ofNat 64 i)

def storeFx (mem : ByteMemory) (a : Address) (fx : Fin 512 → BitVec 8) : ByteMemory :=
  mem.storeBlock a 512 fun k => if h : k < 512 then fx ⟨k, h⟩ else 0

end State

open State in
def exec (alu : Word → Word → Word) (s : State) : Instr → State
  | .mov dst src => s.set dst (s.cpu.reg src)
  | .mov32 dst src => s.set dst (((s.cpu.reg src).setWidth 32).setWidth 64)
  | .load dst base off => s.set dst (s.mem.loadWord (s.addr base off))
  | .store base off src => { s with mem := s.mem.storeWord (s.addr base off) (s.cpu.reg src) }
  | .lea dst base off => s.set dst (s.addr base off)
  | .push src => s.push (s.value src)
  | .pop dst => s.drop.set dst s.top
  | .popMem base off => { s.drop with mem := s.mem.storeWord (s.drop.addr base off) s.top }
  | .addImm dst n => (s.set dst (s.cpu.reg dst + n)).setFlags (alu s.cpu.rflags (s.cpu.reg dst + n))
  | .subImm dst n => (s.set dst (s.cpu.reg dst - n)).setFlags (alu s.cpu.rflags (s.cpu.reg dst - n))
  | .andImm dst mask => (s.set dst (s.cpu.reg dst &&& mask)).setFlags (alu s.cpu.rflags (s.cpu.reg dst &&& mask))
  | .andImm32 dst mask =>
    let v := ((s.cpu.reg dst).setWidth 32 &&& mask).setWidth 64
    (s.set dst v).setFlags (alu s.cpu.rflags v)
  | .movFromSeg dst seg => s.set dst ((s.cpu.reg dst).extractLsb' 16 48 ++ s.cpu.seg seg)
  | .movToSeg seg src => s.setSeg seg (s.cpu.reg src)
  | .movFromCr3 dst => s.set dst s.cpu.cr3
  | .movToCr3 src => { s with cpu := { s.cpu with cr3 := s.cpu.reg src } }
  | .pushfq => s.push s.cpu.rflags
  | .cli => s.setFlags (s.cpu.rflags &&& ~~~interruptFlag)
  | .sti => s.setFlags (s.cpu.rflags ||| interruptFlag)
  | .fxsave base off => { s with mem := storeFx s.mem (s.addr base off) s.cpu.fx }
  | .fxrstor base off => { s with cpu := { s.cpu with fx := loadFx s.mem (s.addr base off) } }
  | .ret => s.drop.setRip s.top
  | .retf =>
    let t := (s.drop.setRip s.top).drop.setSeg .cs s.drop.top
    if ring (s.cpu.seg .cs) < ring (t.cpu.seg .cs) then
      (t.drop.setSeg .ss t.drop.top).set .rsp t.top
    else t
  | .iretq =>
    let ip := s
    let cs := ip.drop
    let flags := cs.drop
    let sp := flags.drop
    let ss := sp.drop
    ((((s.setRip ip.top).setSeg .cs cs.top).setFlags flags.top).setSeg .ss ss.top).set .rsp sp.top

def run (alu : Word → Word → Word) (code : List Instr) (s : State) : State := code.foldl (exec alu) s

/-! ## The stack pointer and the other registers -/

variable {r r' q : Reg} {v w : Word}

theorem Processor.set_self (p : Processor) (r : Reg) (v : Word) : (p.set r v).reg r = v := by
  simp [Processor.set]

theorem Processor.set_of_ne (p : Processor) (v : Word) (h : q ≠ r) : (p.set r v).reg q = p.reg q :=
  Function.update_of_ne h _ _

theorem Processor.set_set (p : Processor) (r : Reg) (v w : Word) : (p.set r v).set r w = p.set r w := by
  simp [Processor.set]

theorem Processor.set_comm (p : Processor) (v w : Word) (h : r ≠ r') : (p.set r v).set r' w = (p.set r' w).set r v := by
  simp only [Processor.set, Function.update_comm h]

theorem Processor.setAll_set (p : Processor) (words : List Word) (v : Word) {regs : List Reg} (h : r ∉ regs) :
    (p.set r v).setAll regs words = (p.setAll regs words).set r v := by
  induction regs generalizing p words with
  | nil => simp only [Processor.setAll]
  | cons q regs ih =>
    rw [List.mem_cons, not_or] at h
    cases words with
    | nil => rfl
    | cons w words => rw [Processor.setAll, Processor.setAll, Processor.set_comm _ _ _ h.1, ih _ _ h.2]

theorem Processor.setAll_map (p : Processor) (regs : List Reg) (value : Reg → Word) (r : Reg) :
    (p.setAll regs (regs.map value)).reg r = if r ∈ regs then value r else p.reg r := by
  induction regs generalizing p with
  | nil => rfl
  | cons q regs ih =>
    rw [List.map_cons, Processor.setAll, ih]
    by_cases hr : r = q
    · simp [hr, Processor.set]
    · simp [hr, Processor.set]

theorem Processor.setAll_cr3 (p : Processor) (regs : List Reg) (words : List Word) :
    (p.setAll regs words).cr3 = p.cr3 := by
  induction regs generalizing p words with
  | nil => simp only [Processor.setAll]
  | cons q regs ih =>
    cases words with
    | nil => rfl
    | cons w words => exact ih ..

theorem Processor.setAll_seg (p : Processor) (regs : List Reg) (words : List Word) :
    (p.setAll regs words).seg = p.seg := by
  induction regs generalizing p words with
  | nil => simp only [Processor.setAll]
  | cons q regs ih =>
    cases words with
    | nil => rfl
    | cons w words => exact ih ..

namespace State

theorem push_rsp (s : State) (v : Word) : (s.push v).cpu.reg .rsp = s.cpu.reg .rsp - 8 :=
  Processor.set_self ..

theorem push_of_ne (s : State) (v : Word) (h : r ≠ .rsp) : (s.push v).cpu.reg r = s.cpu.reg r :=
  Processor.set_of_ne _ _ h

theorem addr_push (s : State) (v : Word) (off : Nat) (h : r ≠ .rsp) : (s.push v).addr r off = s.addr r off := by
  rw [State.addr, State.addr, push_of_ne s v h]

theorem set_set (s : State) (r : Reg) (v w : Word) : (s.set r v).set r w = s.set r w := by
  simp [State.set, Processor.set]

end State

/-! ## The vector registers -/

theorem State.loadWord_storeFx_of_apart {mem : ByteMemory} {a b : Address} {fx : Fin 512 → BitVec 8}
    (h : Apart a 8 b 512) :
    (storeFx mem b fx).loadWord a = mem.loadWord a := ByteMemory.loadWord_storeBlock_of_apart h

theorem State.loadFx_storeFx (mem : ByteMemory) (a : Address) (fx : Fin 512 → BitVec 8) :
    loadFx (storeFx mem a fx) a = fx := by
  funext i
  have hdist : (a + BitVec.ofNat 64 i - a).toNat = i := by bv_omega
  unfold loadFx storeFx
  rw [ByteMemory.storeBlock_of_in (inBlock_add i.isLt), hdist, dif_pos i.isLt]

/-! ## Runs -/

variable {alu : Word → Word → Word} {s : State} {code rest : List Instr} {i : Instr}

theorem run_nil : run alu [] s = s := rfl

theorem run_cons : run alu (i :: code) s = run alu code (exec alu s i) := rfl

theorem run_append : run alu (code ++ rest) s = run alu rest (run alu code s) := List.foldl_append

/-- The operand is the same after some of `n` pushes. -/
def Operand.Kept (s : State) (n : Nat) : Operand → Prop
  | .reg r => r ≠ .rsp
  | .mem base off => base ≠ .rsp ∧ Apart (below (s.cpu.reg .rsp) n) (8 * n) (s.addr base off) 8

theorem value_push {op : Operand} {n : Nat} (hn : 8 * (n + 1) < 2 ^ 64) (h : op.Kept s (n + 1)) (v : Word) :
    (s.push v).value op = s.value op := by
  cases op with
  | reg r => exact State.push_of_ne _ _ h
  | mem base off =>
    rw [State.value, State.addr_push _ _ _ h.1]
    apply ByteMemory.loadWord_storeWord_of_apart
    exact fun x hx hin => h.2 x ((inBlock_below_succ hn).mpr (.inl hin)) hx

theorem Operand.Kept.push {op : Operand} {n : Nat} (hn : 8 * (n + 1) < 2 ^ 64) (h : op.Kept s (n + 1)) (v : Word) :
    op.Kept (s.push v) n := by
  cases op with
  | reg r => exact h
  | mem base off =>
    refine ⟨h.1, ?_⟩
    rw [State.addr_push _ _ _ h.1, State.push_rsp]
    exact fun x hx => h.2 x ((inBlock_below_succ hn).mpr (.inr hx))

theorem run_pushes {ops : List Operand} (hlen : 8 * ops.length < 2 ^ 64) (h : ∀ op ∈ ops, op.Kept s ops.length) :
    run alu (ops.map .push) s =
      ⟨s.cpu.set .rsp (below (s.cpu.reg .rsp) ops.length), s.mem.pushWords (s.cpu.reg .rsp) (ops.map s.value)⟩ := by
  induction ops generalizing s with
  | nil => simp [run_nil, below, Processor.set, ByteMemory.pushWords]
  | cons op ops ih =>
    rw [List.length_cons] at hlen h
    obtain ⟨-, hops⟩ := List.forall_mem_cons.mp h
    have hsame : ops.map (s.push (s.value op)).value = ops.map s.value :=
      List.map_congr_left fun q hq => value_push hlen (hops q hq) _
    have hrest : ∀ q ∈ ops, q.Kept (s.push (s.value op)) ops.length := fun q hq => (hops q hq).push hlen _
    rw [List.map_cons, run_cons, exec, ih (by omega) hrest, hsame, State.push_rsp]
    simp [State.push, State.set, Processor.set, ByteMemory.pushWords, below_succ]

/-- Pops take the words from the stack one after the other. -/
theorem run_pops {p : Processor} {mem : ByteMemory} {regs : List Reg} {words : List Word} (hsp : Reg.rsp ∉ regs)
    (hlen : regs.length = words.length)
    (hwords : ByteMemory.WordsAt mem (p.reg .rsp) words) :
    run alu (regs.map .pop) ⟨p, mem⟩ =
      ⟨(p.setAll regs words).set .rsp (p.reg .rsp + BitVec.ofNat 64 (8 * regs.length)), mem⟩ := by
  induction regs generalizing p words with
  | nil => simp [run_nil, Processor.set, Processor.setAll]
  | cons r regs ih =>
    rw [List.mem_cons, not_or] at hsp
    cases words with
    | nil => cases hlen
    | cons v words =>
      have hpop : exec alu ⟨p, mem⟩ (.pop r) = ⟨(p.set r v).set .rsp (p.reg .rsp + 8), mem⟩ := by
        rw [Processor.set_comm _ _ _ (Ne.symm hsp.1), ← hwords.1]
        rfl
      have hnext : p.reg .rsp + 8 + BitVec.ofNat 64 (8 * regs.length) =
          p.reg .rsp + BitVec.ofNat 64 (8 * (regs.length + 1)) := by bv_omega
      rw [List.map_cons, run_cons, hpop, ih hsp.2 (Nat.succ.inj hlen) (by rw [Processor.set_self]; exact hwords.2),
        Processor.setAll_set _ _ _ hsp.2, Processor.set_set, Processor.set_self, hnext]
      rfl

/-- What pops leave, when the stack has a value for each of the registers. -/
structure Pops (regs : List Reg) (value : Reg → Word) (p t : Processor) : Prop where
  rsp : t.reg .rsp = p.reg .rsp + BitVec.ofNat 64 (8 * regs.length)
  reg : ∀ r, r ≠ .rsp → t.reg r = if r ∈ regs then value r else p.reg r
  cr3 : t.cr3 = p.cr3
  seg : t.seg = p.seg

theorem run_pops_then {p : Processor} {mem : ByteMemory} (regs : List Reg) (value : Reg → Word) (rest : List Instr)
    (hsp : Reg.rsp ∉ regs) (hwords : ByteMemory.WordsAt mem (p.reg .rsp) (regs.map value)) :
    ∃ t, run alu (regs.map .pop ++ rest) ⟨p, mem⟩ = run alu rest ⟨t, mem⟩ ∧ Pops regs value p t := by
  refine ⟨(p.setAll regs (regs.map value)).set .rsp (p.reg .rsp + BitVec.ofNat 64 (8 * regs.length)), ?_, ?_, ?_, ?_,
    ?_⟩
  · rw [run_append, run_pops hsp (List.length_map ..).symm hwords]
  · rw [Processor.set_self]
  · intro r hr
    rw [Processor.set_of_ne _ _ hr, Processor.setAll_map]
  · exact Processor.setAll_cr3 ..
  · exact Processor.setAll_seg ..

/-- Skips words of the stack, and pops the registers that lie there. -/
theorem run_skip_pops {p : Processor} {mem : ByteMemory} (regs : List Reg) (value : Reg → Word) (n : Word)
    (rest : List Instr) (hsp : Reg.rsp ∉ regs)
    (hwords : ByteMemory.WordsAt mem (p.reg .rsp + n) (regs.map value)) :
    ∃ t, run alu (.addImm .rsp n :: (regs.map .pop ++ rest)) ⟨p, mem⟩ = run alu rest ⟨t, mem⟩ ∧
      Pops regs value (p.set .rsp (p.reg .rsp + n)) t := by
  rw [← Processor.set_self p .rsp (p.reg .rsp + n)] at hwords
  obtain ⟨t, hrun, hpops⟩ := @run_pops_then alu
    { p.set .rsp (p.reg .rsp + n) with rflags := alu p.rflags (p.reg .rsp + n) } mem regs value rest hsp hwords
  exact ⟨t, hrun, hpops.rsp, hpops.reg, hpops.cr3, hpops.seg⟩

/-- A far return to an outer ring. -/
theorem exec_retf_outer {p : Processor} {mem : ByteMemory} {ip cs sp ss : Word}
    (hwords : ByteMemory.WordsAt mem (p.reg .rsp) [ip, cs, sp, ss])
    (hring : State.ring (p.seg .cs) < State.ring (cs.setWidth 16)) :
    exec alu ⟨p, mem⟩ .retf =
      ⟨{ p.set .rsp sp with
          rip := ip
          seg := Function.update (Function.update p.seg .cs (cs.setWidth 16)) .ss (ss.setWidth 16) }, mem⟩ := by
  obtain ⟨hip, hcs, hsp, hss, -⟩ := hwords
  simp only [exec, State.drop, State.top, State.setRip, State.setSeg, State.set, Processor.set, Function.update_self,
    hip, hcs, hsp, hss, if_pos hring]
  simp

end Reasoning.X64
