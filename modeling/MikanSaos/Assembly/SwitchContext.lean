import MikanSaos.Reasoning.X64

/-!
# SwitchContext — the context of a task, saved and restored

A `TaskContext` holds a whole processor.  `SwitchContext` stores the processor of the task that calls it and goes on as
`RestoreContext` with the context of the next one.  The memory is the lower half, which all page maps map alike.
-/

open Reasoning Reasoning.X64

namespace MikanSaos.Assembly

namespace TaskContext

def size : Nat := 0x2c0

def regOffset : Reg → Nat
  | .rax => 0x40 | .rbx => 0x48 | .rcx => 0x50 | .rdx => 0x58
  | .rdi => 0x60 | .rsi => 0x68 | .rsp => 0x70 | .rbp => 0x78
  | .r8 => 0x80 | .r9 => 0x88 | .r10 => 0x90 | .r11 => 0x98
  | .r12 => 0xa0 | .r13 => 0xa8 | .r14 => 0xb0 | .r15 => 0xb8

def segOffset : Seg → Nat
  | .cs => 0x20 | .ss => 0x28 | .fs => 0x30 | .gs => 0x38

/-- The memory at `ctx` is a context of the processor.  Of a selector only the low 16 bits count. -/
structure Holds (mem : ByteMemory) (ctx : Address) (p : Processor) : Prop where
  cr3 : mem.loadWord (ctx + BitVec.ofNat 64 0x00) = p.cr3
  rip : mem.loadWord (ctx + BitVec.ofNat 64 0x08) = p.rip
  rflags : mem.loadWord (ctx + BitVec.ofNat 64 0x10) = p.rflags
  seg : ∀ seg, (mem.loadWord (ctx + BitVec.ofNat 64 (segOffset seg))).setWidth 16 = p.seg seg
  reg : ∀ r, mem.loadWord (ctx + BitVec.ofNat 64 (regOffset r)) = p.reg r
  fx : State.loadFx mem (ctx + BitVec.ofNat 64 0xc0) = p.fx

end TaskContext

open TaskContext

/-! `SwitchContext`, down to `RestoreContext`. -/

def saveRegs : List Instr := [
  .store .rsi 0x40 .rax,
  .store .rsi 0x48 .rbx,
  .store .rsi 0x50 .rcx,
  .store .rsi 0x58 .rdx,
  .store .rsi 0x60 .rdi,
  .store .rsi 0x68 .rsi,

  .lea .rax .rsp 8,
  .store .rsi 0x70 .rax,
  .store .rsi 0x78 .rbp,

  .store .rsi 0x80 .r8,
  .store .rsi 0x88 .r9,
  .store .rsi 0x90 .r10,
  .store .rsi 0x98 .r11,
  .store .rsi 0xa0 .r12,
  .store .rsi 0xa8 .r13,
  .store .rsi 0xb0 .r14,
  .store .rsi 0xb8 .r15]

def saveRip : List Instr := [
  .movFromCr3 .rax,
  .store .rsi 0x00 .rax,
  .load .rax .rsp 0,
  .store .rsi 0x08 .rax]

def saveFlags : List Instr := [
  .pushfq,
  .popMem .rsi 0x10]

def saveSegs : List Instr := [
  .movFromSeg .rax .cs,
  .store .rsi 0x20 .rax,
  .movFromSeg .rax .ss,
  .store .rsi 0x28 .rax,
  .movFromSeg .rax .fs,
  .store .rsi 0x30 .rax,
  .movFromSeg .rax .gs,
  .store .rsi 0x38 .rax]

def saveFx : List Instr := [.fxsave .rsi 0xc0]

/-- The frame for `iret`: `ss`, `rsp`, `rflags`, `cs` and `rip`. -/
def pushFrame : List Instr := [0x28, 0x70, 0x10, 0x20, 0x08].map fun off => .push (.mem .rdi off)

def loadContext : List Instr := [
  .fxrstor .rdi 0xc0,

  .load .rax .rdi 0x00,
  .movToCr3 .rax,
  .load .rax .rdi 0x30,
  .movToSeg .fs .rax,
  .load .rax .rdi 0x38,
  .movToSeg .gs .rax,

  .load .rax .rdi 0x40,
  .load .rbx .rdi 0x48,
  .load .rcx .rdi 0x50,
  .load .rdx .rdi 0x58,
  .load .rsi .rdi 0x68,
  .load .rbp .rdi 0x78,
  .load .r8 .rdi 0x80,
  .load .r9 .rdi 0x88,
  .load .r10 .rdi 0x90,
  .load .r11 .rdi 0x98,
  .load .r12 .rdi 0xa0,
  .load .r13 .rdi 0xa8,
  .load .r14 .rdi 0xb0,
  .load .r15 .rdi 0xb8,

  .load .rdi .rdi 0x60,

  .iretq]

def restoreContext : List Instr := pushFrame ++ loadContext

def saveContext : List Instr := saveRegs ++ (saveRip ++ (saveFlags ++ (saveSegs ++ saveFx)))

def switchContext : List Instr := saveContext ++ restoreContext

variable {alu : Word → Word → Word} {s : State} {mem mem' : ByteMemory} {ctx : Address} {p q : Processor} {v : Word}

namespace TaskContext

/-! ## What a context depends on -/

theorem Holds.of_same {dst src : Address} (h : Holds mem src p)
    (hsame : ∀ i < size, mem' (dst + BitVec.ofNat 64 i) = mem (src + BitVec.ofNat 64 i)) : Holds mem' dst p := by
  have hword : ∀ k, k + 8 ≤ size → mem'.loadWord (dst + BitVec.ofNat 64 k) = mem.loadWord (src + BitVec.ofNat 64 k) :=
    fun k hk => ByteMemory.loadWord_of_same hsame hk
  refine ⟨?_, ?_, ?_, fun seg => ?_, fun r => ?_, ?_⟩
  · rw [hword _ (by decide), h.cr3]
  · rw [hword _ (by decide), h.rip]
  · rw [hword _ (by decide), h.rflags]
  · rw [hword _ (by cases seg <;> decide), h.seg]
  · rw [hword _ (by cases r <;> decide), h.reg]
  · rw [← h.fx]
    funext i
    have hi := i.isLt
    unfold State.loadFx
    rw [BitVec.add_assoc, BitVec.add_assoc, ← BitVec.ofNat_add]
    exact hsame _ (by simp only [size]; omega)

theorem Holds.congr (h : Holds mem ctx p) (hsame : ∀ x, InBlock x ctx size → mem' x = mem x) : Holds mem' ctx p :=
  h.of_same fun _ hi => hsame _ (inBlock_add hi)

/-- `memcpy` of a context. -/
theorem Holds.copyBlock {dst src : Address} (h : Holds mem src p) : Holds (mem.copyBlock dst src size) dst p :=
  h.of_same fun _ hi => ByteMemory.copyBlock_byte hi (by decide)

/-- The processor that the memory at `ctx` is a context of. -/
def savedProcessor (mem : ByteMemory) (ctx : Address) : Processor where
  reg r := mem.loadWord (ctx + BitVec.ofNat 64 (regOffset r))
  rip := mem.loadWord (ctx + BitVec.ofNat 64 0x08)
  rflags := mem.loadWord (ctx + BitVec.ofNat 64 0x10)
  cr3 := mem.loadWord (ctx + BitVec.ofNat 64 0x00)
  seg seg := (mem.loadWord (ctx + BitVec.ofNat 64 (segOffset seg))).setWidth 16
  fx := State.loadFx mem (ctx + BitVec.ofNat 64 0xc0)

theorem holds_savedProcessor (mem : ByteMemory) (ctx : Address) : Holds mem ctx (savedProcessor mem ctx) where
  cr3 := rfl
  rip := rfl
  rflags := rfl
  seg _ := rfl
  reg _ := rfl
  fx := rfl

theorem Holds.savedProcessor_eq (h : Holds mem ctx p) : savedProcessor mem ctx = p :=
  Processor.ext (funext h.reg) h.rip h.rflags h.cr3 (funext h.seg) h.fx

theorem savedProcessor_congr (h : ∀ x, InBlock x ctx size → mem' x = mem x) :
    savedProcessor mem' ctx = savedProcessor mem ctx :=
  ((holds_savedProcessor mem ctx).congr h).savedProcessor_eq

end TaskContext

/-- The processor of a task that has returned from a call. -/
def returned (s : State) : Processor := (s.drop.setRip s.top).cpu

/-! ## Saving -/

/-- `mov ax, seg`: the upper bits stay. -/
def withSelector (v : Word) (seg : BitVec 16) : Word := v.extractLsb' 16 48 ++ seg

theorem setWidth_withSelector (v : Word) (seg : BitVec 16) : (withSelector v seg).setWidth 16 = seg := by
  unfold withSelector
  rw [BitVec.setWidth_append]
  simp

theorem withSelector_withSelector (v : Word) (seg seg' : BitVec 16) :
    withSelector (withSelector v seg) seg' = withSelector v seg' := by
  unfold withSelector
  ext i hi
  simp only [BitVec.getElem_append]
  by_cases h : i < 16
  · rw [dif_pos h, dif_pos h]
  · have hi' : 16 + (i - 16) = i := by omega
    rw [dif_neg h, dif_neg h, BitVec.getElem_extractLsb', BitVec.getElem_extractLsb', BitVec.getLsbD_append,
      if_neg (by omega), hi', BitVec.getLsbD_extractLsb', hi', decide_eq_true (by omega), Bool.true_and]

def regFields (s : State) : List (Nat × Word) := [
  (0x40, s.cpu.reg .rax), (0x48, s.cpu.reg .rbx), (0x50, s.cpu.reg .rcx), (0x58, s.cpu.reg .rdx),
  (0x60, s.cpu.reg .rdi), (0x68, s.cpu.reg .rsi), (0x70, s.cpu.reg .rsp + 8), (0x78, s.cpu.reg .rbp),
  (0x80, s.cpu.reg .r8), (0x88, s.cpu.reg .r9), (0x90, s.cpu.reg .r10), (0x98, s.cpu.reg .r11),
  (0xa0, s.cpu.reg .r12), (0xa8, s.cpu.reg .r13), (0xb0, s.cpu.reg .r14), (0xb8, s.cpu.reg .r15)]

def segFields (v : Word) (p : Processor) : List (Nat × Word) :=
  [Seg.cs, .ss, .fs, .gs].map fun seg => (segOffset seg, withSelector v (p.seg seg))

def earlyFields (s : State) : List (Nat × Word) := regFields s ++ [(0x00, s.cpu.cr3), (0x08, s.top)]

def lateFields (s : State) : List (Nat × Word) := (0x10, s.cpu.rflags) :: segFields s.top s.cpu

theorem run_saveRegs : run alu saveRegs s =
    { cpu := s.cpu.set .rax (s.cpu.reg .rsp + 8)
      mem := s.mem.storeFields (s.cpu.reg .rsi) (regFields s) } := by
  simp [saveRegs, regFields, run, exec, State.set, Processor.set, State.addr, ByteMemory.storeFields]

theorem run_saveRip (hapart : Apart (p.reg .rsp) 8 (p.reg .rsi) size) : run alu saveRip ⟨p.set .rax v, mem⟩ =
    ⟨p.set .rax (mem.loadWord (p.reg .rsp)),
      mem.storeFields (p.reg .rsi) [(0x00, p.cr3), (0x08, mem.loadWord (p.reg .rsp))]⟩ := by
  have htop : (mem.storeWord (p.reg .rsi) p.cr3).loadWord (p.reg .rsp) = mem.loadWord (p.reg .rsp) :=
    ByteMemory.loadWord_storeWord_of_apart (hapart.mono le_rfl (by decide))
  simp [saveRip, run, exec, State.set, Processor.set, State.addr, ByteMemory.storeFields, htop]

theorem run_saveFlags : run alu saveFlags ⟨p.set .rax v, mem⟩ =
    ⟨p.set .rax v,
      (mem.storeWord (p.reg .rsp - 8) p.rflags).storeFields (p.reg .rsi) [(0x10, p.rflags)]⟩ := by
  simp [saveFlags, run, exec, State.set, Processor.set, State.addr, State.push, State.drop, State.top,
    ByteMemory.storeFields, ByteMemory.loadWord_storeWord]

theorem run_saveSegs : run alu saveSegs ⟨p.set .rax v, mem⟩ =
    ⟨p.set .rax (withSelector v (p.seg .gs)), mem.storeFields (p.reg .rsi) (segFields v p)⟩ := by
  have hset : ∀ (w : Word) (seg : BitVec 16), w.extractLsb' 16 48 ++ seg = withSelector w seg := fun _ _ => rfl
  simp [saveSegs, segFields, segOffset, run, exec, State.set, Processor.set, State.addr, ByteMemory.storeFields, hset,
    withSelector_withSelector]

/-- The memory that `SwitchContext` leaves with the next context to be restored. -/
def savedMem (s : State) : ByteMemory :=
  State.storeFx (((s.mem.storeFields (s.cpu.reg .rsi) (earlyFields s)).storeWord
    (s.cpu.reg .rsp - 8) s.cpu.rflags).storeFields (s.cpu.reg .rsi) (lateFields s))
    (s.cpu.reg .rsi + BitVec.ofNat 64 0xc0) s.cpu.fx

/-- What `SwitchContext` does before it goes on as `RestoreContext`. -/
theorem run_saveContext (hapart : Apart (s.cpu.reg .rsp) 8 (s.cpu.reg .rsi) size) :
    run alu saveContext s = ⟨s.cpu.set .rax (withSelector s.top (s.cpu.seg .gs)), savedMem s⟩ := by
  have htop : (s.mem.storeFields (s.cpu.reg .rsi) (regFields s)).loadWord (s.cpu.reg .rsp) = s.top :=
    ByteMemory.loadWord_storeFields_of_apart (by decide) (by simp [regFields, size]) hapart
  rw [saveContext, run_append, run_saveRegs, run_append, run_saveRip hapart, htop, run_append, run_saveFlags,
    run_append, run_saveSegs, savedMem, earlyFields, ByteMemory.storeFields_append]
  rfl

theorem offsets_apart : ((earlyFields s ++ lateFields s).map Prod.fst).Pairwise fun k l => k + 8 ≤ l ∨ l + 8 ≤ k := by
  simp [earlyFields, regFields, lateFields, segFields, segOffset]

theorem fields_inside : ∀ field ∈ earlyFields s ++ lateFields s, field.1 + 8 ≤ 0xc0 := by
  simp [earlyFields, regFields, lateFields, segFields, segOffset]

theorem loadWord_savedMem {k : Nat} (hapart : Apart (s.cpu.reg .rsp - 8) 8 (s.cpu.reg .rsi) size)
    (h : (k, v) ∈ earlyFields s ++ lateFields s) :
    (savedMem s).loadWord (s.cpu.reg .rsi + BitVec.ofNat 64 k) = v := by
  have hin : k + 8 ≤ 0xc0 := fields_inside _ h
  have hinside := List.forall_mem_append.mp (fields_inside (s := s))
  have hpair := List.pairwise_append.mp ((List.map_append ..) ▸ offsets_apart (s := s))
  have hfx : Apart (s.cpu.reg .rsi + BitVec.ofNat 64 k) 8 (s.cpu.reg .rsi + BitVec.ofNat 64 0xc0) 512 :=
    apart_offsets (.inl hin) (by omega) (by decide)
  rw [savedMem, State.loadWord_storeFx_of_apart hfx]
  rcases List.mem_append.mp h with hearly | hlate
  · rw [ByteMemory.loadWord_storeFields_of_gap (by decide) hinside.2 hin
      fun l hl => hpair.2.2 _ (List.mem_map_of_mem hearly) l hl]
    rw [ByteMemory.loadWord_storeWord_of_apart fun x hx hy => hapart x hy
      (hx.of_sub (hin.trans (by decide)) (by decide))]
    exact ByteMemory.loadWord_storeFields (by decide) hinside.1 hpair.1 hearly
  · exact ByteMemory.loadWord_storeFields (by decide) hinside.2 hpair.2.1 hlate

theorem returned_cr3 (s : State) : (returned s).cr3 = s.cpu.cr3 := rfl

theorem returned_rip (s : State) : (returned s).rip = s.top := rfl

theorem returned_rflags (s : State) : (returned s).rflags = s.cpu.rflags := rfl

theorem returned_reg (s : State) : (returned s).reg = Function.update s.cpu.reg .rsp (s.cpu.reg .rsp + 8) := rfl

/-- `SwitchContext` saves the processor as it is after its return. -/
theorem holds_savedMem (hapart : Apart (s.cpu.reg .rsp - 8) 8 (s.cpu.reg .rsi) size) :
    Holds (savedMem s) (s.cpu.reg .rsi) (returned s) where
  cr3 := loadWord_savedMem hapart (by simp [earlyFields, returned_cr3])
  rip := loadWord_savedMem hapart (by simp [earlyFields, returned_rip])
  rflags := loadWord_savedMem hapart (by simp [lateFields, returned_rflags])
  seg seg := by
    have hword : (segOffset seg, withSelector s.top (s.cpu.seg seg)) ∈ earlyFields s ++ lateFields s := by
      cases seg <;> simp [lateFields, segFields]
    rw [loadWord_savedMem hapart hword, setWidth_withSelector]
    rfl
  reg r := by
    apply loadWord_savedMem hapart
    cases r <;> simp [earlyFields, regFields, regOffset, returned_reg]
  fx := State.loadFx_storeFx ..

theorem savedMem_of_not_in {x : Address} (hctx : ¬ InBlock x (s.cpu.reg .rsi) size)
    (hstack : ¬ InBlock x (s.cpu.reg .rsp - 8) 8) :
   savedMem s x = s.mem x := by
  have hinside := List.forall_mem_append.mp (fields_inside (s := s))
  have hwords : ¬ InBlock x (s.cpu.reg .rsi) 0xc0 := fun h => hctx (h.trans_le (by decide))
  have hfx : ¬ InBlock x (s.cpu.reg .rsi + BitVec.ofNat 64 0xc0) 512 :=
    fun h => hctx (h.of_sub (by decide) (by decide))
  unfold savedMem State.storeFx
  rw [ByteMemory.storeBlock_of_not_in hfx, ByteMemory.storeFields_of_not_in (by decide) hinside.2 hwords,
    ByteMemory.storeWord_of_not_in hstack, ByteMemory.storeFields_of_not_in (by decide) hinside.1 hwords]

/-! ## Restoring -/

def frameWords (mem : ByteMemory) (ctx : Address) : List Word :=
  [0x28, 0x70, 0x10, 0x20, 0x08].map fun off => mem.loadWord (ctx + BitVec.ofNat 64 off)

theorem run_pushFrame (hapart : Apart (below (s.cpu.reg .rsp) 5) 40 (s.cpu.reg .rdi) size) :
    run alu pushFrame s =
      ⟨s.cpu.set .rsp (below (s.cpu.reg .rsp) 5),
        s.mem.pushWords (s.cpu.reg .rsp) (frameWords s.mem (s.cpu.reg .rdi))⟩ := by
  have hin : ∀ off ∈ [0x28, 0x70, 0x10, 0x20, 0x08], off + 8 ≤ size := by decide
  refine @run_pushes alu s ([0x28, 0x70, 0x10, 0x20, 0x08].map fun off => .mem .rdi off) (by decide) ?_
  intro op hop
  obtain ⟨off, hoff, rfl⟩ := List.mem_map.mp hop
  exact ⟨by decide, fun x hx h => hapart x hx (h.of_sub (hin off hoff) (by decide))⟩

theorem run_loadContext (hctx : Holds mem (q.reg .rdi) p)
    (hframe : ByteMemory.WordsAt mem (q.reg .rsp) (frameWords mem (q.reg .rdi)).reverse) :
    run alu loadContext ⟨q, mem⟩ = ⟨p, mem⟩ := by
  simp only [frameWords, List.map_cons, List.map_nil, List.reverse_cons, List.reverse_nil, List.nil_append,
    List.cons_append, ByteMemory.WordsAt] at hframe
  obtain ⟨hip, hcs, hflags, hsp, hss, -⟩ := hframe
  rw [hctx.rip] at hip
  rw [hctx.rflags] at hflags
  have hsp' := hsp.trans (hctx.reg .rsp)
  have hcs' := (congrArg (BitVec.setWidth 16) hcs).trans (hctx.seg .cs)
  have hss' := (congrArg (BitVec.setWidth 16) hss).trans (hctx.seg .ss)
  simp only [loadContext, run, List.foldl, exec, State.addr, State.set, Processor.set, State.setSeg]
  simp only [State.drop, State.top, State.setRip, State.setFlags, State.set, Processor.set]
  refine congrArg (State.mk · mem) (Processor.ext (funext fun r => ?_) ?_ ?_ ?_ (funext fun seg => ?_) ?_)
  · -- `rsp` is from the frame, the other registers from the context
    have hreg := hctx.reg r
    cases r
    case rsp => simpa using hsp'
    all_goals simpa [regOffset] using hreg
  · simpa using hip
  · simpa using hflags
  · simpa using hctx.cr3
  · have hseg := hctx.seg seg
    cases seg
    case cs => simpa using hcs'
    case ss => simpa using hss'
    all_goals simpa [segOffset] using hseg
  · simpa using hctx.fx

theorem run_restoreContext (hctx : Holds s.mem (s.cpu.reg .rdi) p)
    (hapart : Apart (below (s.cpu.reg .rsp) 5) 40 (s.cpu.reg .rdi) size) :
    run alu restoreContext s =
      ⟨p, s.mem.pushWords (s.cpu.reg .rsp) (frameWords s.mem (s.cpu.reg .rdi))⟩ := by
  have hsame : ∀ x, InBlock x (s.cpu.reg .rdi) size →
      s.mem.pushWords (s.cpu.reg .rsp) (frameWords s.mem (s.cpu.reg .rdi)) x = s.mem x :=
    fun x hx => ByteMemory.pushWords_of_not_in (by simp [frameWords]) fun hin => hapart x hin hx
  have hwords : frameWords (s.mem.pushWords (s.cpu.reg .rsp) (frameWords s.mem (s.cpu.reg .rdi))) (s.cpu.reg .rdi) =
      frameWords s.mem (s.cpu.reg .rdi) := by
    apply List.map_congr_left
    intro off hoff
    have hin : off + 8 ≤ size := by
      revert off
      decide
    exact ByteMemory.loadWord_congr fun x hx => hsame x (hx.of_sub hin (by decide))
  rw [restoreContext, run_append, run_pushFrame hapart]
  apply run_loadContext
  · exact hctx.congr hsame
  · have hrsp : (s.cpu.set .rsp (below (s.cpu.reg .rsp) 5)).reg .rsp = below (s.cpu.reg .rsp) 5 :=
      Processor.set_self ..
    have hrdi : (s.cpu.set .rsp (below (s.cpu.reg .rsp) 5)).reg .rdi = s.cpu.reg .rdi :=
      Processor.set_of_ne _ _ (by decide)
    have hpushed : ByteMemory.WordsAt (s.mem.pushWords (s.cpu.reg .rsp) (frameWords s.mem (s.cpu.reg .rdi)))
        (below (s.cpu.reg .rsp) 5) ((frameWords s.mem (s.cpu.reg .rdi)).reverse ++ []) :=
      ByteMemory.wordsAt_pushWords (by simp [frameWords]) trivial
    rw [List.append_nil] at hpushed
    rwa [hrsp, hrdi, hwords]

/-- `RestoreContext` leaves the processor of the context, and pushes a frame for `iret`. -/
theorem restoreContext_spec (hctx : Holds s.mem (s.cpu.reg .rdi) p)
    (hapart : Apart (below (s.cpu.reg .rsp) 5) 40 (s.cpu.reg .rdi) size) :
    (run alu restoreContext s).cpu = p ∧
      ∀ x, ¬ InBlock x (below (s.cpu.reg .rsp) 5) 40 → (run alu restoreContext s).mem x = s.mem x := by
  rw [run_restoreContext hctx hapart]
  exact ⟨rfl, fun x hx => ByteMemory.pushWords_of_not_in (by simp [frameWords]) hx⟩

/-- `SwitchContext` leaves the processor of the next task and a context of the one that called it. -/
theorem run_switchContext (hnext : Holds s.mem (s.cpu.reg .rdi) p)
    (hctx : Apart (s.cpu.reg .rsi) size (s.cpu.reg .rdi) size)
    (hstack : Apart (below (s.cpu.reg .rsp) 5) 48 (s.cpu.reg .rsi) size)
    (hstack' : Apart (below (s.cpu.reg .rsp) 5) 40 (s.cpu.reg .rdi) size) :
    (run alu switchContext s).cpu = p ∧
      Holds (run alu switchContext s).mem (s.cpu.reg .rsi) (returned s) ∧
      ∀ x, ¬ InBlock x (s.cpu.reg .rsi) size → ¬ InBlock x (below (s.cpu.reg .rsp) 5) 40 →
        (run alu switchContext s).mem x = s.mem x := by
  have htop : Apart (s.cpu.reg .rsp) 8 (s.cpu.reg .rsi) size := by
    intro x hx
    apply hstack
    unfold InBlock below at *
    bv_omega
  have hbelow : ∀ x, InBlock x (s.cpu.reg .rsp - 8) 8 → InBlock x (below (s.cpu.reg .rsp) 5) 40 := by
    intro x hx
    unfold InBlock below at *
    bv_omega
  have hsaved : Holds (savedMem s) (s.cpu.reg .rdi) p :=
    hnext.congr fun x hx => savedMem_of_not_in (fun h => hctx x h hx) fun h => hstack' x (hbelow x h) hx
  obtain ⟨hcpu, hframe⟩ :=
    @restoreContext_spec alu ⟨s.cpu.set .rax (withSelector s.top (s.cpu.seg .gs)), savedMem s⟩ p hsaved hstack'
  rw [switchContext, run_append, run_saveContext htop]
  refine ⟨hcpu, ?_, fun x hx hstk => ?_⟩
  · have hheld := holds_savedMem fun x hx => hstack x ((hbelow x hx).trans_le (by decide))
    exact hheld.congr fun x hx => hframe x fun h => hstack x (h.trans_le (by decide)) hx
  · exact (hframe x hstk).trans (savedMem_of_not_in hx fun h => hstk (hbelow x h))

end MikanSaos.Assembly
