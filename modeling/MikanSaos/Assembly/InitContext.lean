import MikanSaos.Assembly.SwitchContext

/-!
# InitContext — the context of a new task

`Task::InitContext` writes a context with which `RestoreContext` starts the task at its function, on an empty stack.
-/

open Reasoning Reasoning.X64

namespace MikanSaos.Assembly

open TaskContext

def kKernelCS : BitVec 16 := 1 <<< 3

def kKernelSS : BitVec 16 := 2 <<< 3

/-- `(stack_end & ~0xflu) - 8` -/
def stackTop (stackEnd : Address) : Address := (stackEnd &&& ~~~0xf#64) - 8

/-- The fields that are not zero. -/
def initFields (f id data cr3 : Word) (stackEnd : Address) : List (Nat × Word) := [
  (0x08, f),
  (regOffset .rdi, id),
  (regOffset .rsi, data),

  (0x00, cr3),
  (0x10, 0x202),
  (segOffset .cs, kKernelCS.setWidth 64),
  (segOffset .ss, kKernelSS.setWidth 64),
  (regOffset .rsp, stackTop stackEnd)]

/-- `mxcsr` in the image that `fxsave` stores. -/
def mxcsr : BitVec 32 := 0x1f80

/-- The memory after `InitContext`: `memset`, the fields, and the four bytes of `mxcsr`. -/
def initContext (mem : ByteMemory) (ctx : Address) (f id data cr3 : Word) (stackEnd : Address) : ByteMemory :=
  ((mem.storeBlock ctx size fun _ => 0).storeFields ctx (initFields f id data cr3 stackEnd)).storeBlock
    (ctx + BitVec.ofNat 64 (0xc0 + 24)) 4 fun k => mxcsr.extractLsb' (8 * k) 8

/-- The processor that a new task starts with. -/
def initialProcessor (f id data cr3 : Word) (stackEnd : Address) : Processor where
  reg
    | .rdi => id
    | .rsi => data
    | .rsp => stackTop stackEnd
    | _ => 0
  rip := f
  rflags := 0x202
  cr3 := cr3
  seg
    | .cs => kKernelCS
    | .ss => kKernelSS
    | _ => 0
  fx i := if i.val < 24 then 0 else if i.val < 28 then mxcsr.extractLsb' (8 * (i.val - 24)) 8 else 0

variable {mem : ByteMemory} {ctx : Address} {f id data cr3 : Word} {stackEnd : Address} {k n : Nat}

theorem initFields_apart :
    ((initFields f id data cr3 stackEnd).map Prod.fst).Pairwise fun k l => k + 8 ≤ l ∨ l + 8 ≤ k := by
  simp [initFields, regOffset, segOffset]

theorem initFields_inside : ∀ field ∈ initFields f id data cr3 stackEnd, field.1 + 8 ≤ 0xc0 := by
  simp [initFields, regOffset, segOffset]

/-- The bytes of `mxcsr` are behind all the words. -/
theorem loadWord_initContext (hk : k + 8 ≤ 0xc0) :
    (initContext mem ctx f id data cr3 stackEnd).loadWord (ctx + BitVec.ofNat 64 k) =
      ((mem.storeBlock ctx size fun _ => 0).storeFields ctx (initFields f id data cr3 stackEnd)).loadWord
        (ctx + BitVec.ofNat 64 k) :=
  ByteMemory.loadWord_storeBlock_of_apart (apart_offsets (by omega) (by omega) (by decide))

theorem loadWord_initField {v : Word} (h : (k, v) ∈ initFields f id data cr3 stackEnd) :
    (initContext mem ctx f id data cr3 stackEnd).loadWord (ctx + BitVec.ofNat 64 k) = v := by
  have hk : k + 8 ≤ 0xc0 := initFields_inside _ h
  rw [loadWord_initContext hk]
  exact ByteMemory.loadWord_storeFields (by decide) initFields_inside initFields_apart h

theorem loadWord_initZero (hk : k + 8 ≤ 0xc0)
    (hgap : ∀ l ∈ (initFields f id data cr3 stackEnd).map Prod.fst, k + 8 ≤ l ∨ l + 8 ≤ k) :
    (initContext mem ctx f id data cr3 stackEnd).loadWord (ctx + BitVec.ofNat 64 k) = 0 := by
  rw [loadWord_initContext hk, ByteMemory.loadWord_storeFields_of_gap (by decide) initFields_inside hk hgap]
  exact ByteMemory.loadWord_zeros (hk.trans (by decide))

theorem initContext_fx : State.loadFx (initContext mem ctx f id data cr3 stackEnd) (ctx + BitVec.ofNat 64 0xc0) =
    (initialProcessor f id data cr3 stackEnd).fx := by
  funext i
  have hi := i.isLt
  have heq : ctx + BitVec.ofNat 64 0xc0 + BitVec.ofNat 64 i = ctx + BitVec.ofNat 64 (0xc0 + i) := by
    rw [BitVec.add_assoc, ← BitVec.ofNat_add]
  have hdist : (ctx + BitVec.ofNat 64 (0xc0 + i) - ctx).toNat = 0xc0 + i := by bv_omega
  have hzero : ((mem.storeBlock ctx size fun _ => 0).storeFields ctx (initFields f id data cr3 stackEnd))
      (ctx + BitVec.ofNat 64 (0xc0 + i)) = 0 := by
    rw [ByteMemory.storeFields_of_not_in (by decide) initFields_inside]
    · exact ByteMemory.storeBlock_of_in (inBlock_add (by simp only [size]; omega))
    · unfold InBlock
      omega
  unfold State.loadFx
  rw [heq, initContext]
  by_cases hin : 24 ≤ i.val ∧ i.val < 28
  · have hdist' : (ctx + BitVec.ofNat 64 (0xc0 + i) - (ctx + BitVec.ofNat 64 (0xc0 + 24))).toNat = i.val - 24 := by
      bv_omega
    rw [ByteMemory.storeBlock_of_in (show InBlock _ _ _ by unfold InBlock; omega), hdist']
    simp [initialProcessor, hin, Nat.not_lt.mpr hin.1]
  · rw [ByteMemory.storeBlock_of_not_in, hzero]
    · simp only [initialProcessor]
      split
      · rfl
      · rw [if_neg (by omega)]
    · unfold InBlock
      bv_omega

/-- A new task starts with its function, its id and its data. -/
theorem holds_initContext :
    Holds (initContext mem ctx f id data cr3 stackEnd) ctx (initialProcessor f id data cr3 stackEnd) where
  cr3 := loadWord_initField (by simp [initFields, initialProcessor])
  rip := loadWord_initField (by simp [initFields, initialProcessor])
  rflags := loadWord_initField (by simp [initFields, initialProcessor])
  seg seg := by
    cases seg
    case cs =>
      rw [loadWord_initField (v := kKernelCS.setWidth 64) (by simp [initFields])]
      rfl
    case ss =>
      rw [loadWord_initField (v := kKernelSS.setWidth 64) (by simp [initFields])]
      rfl
    all_goals
      rw [loadWord_initZero (by decide) (by simp [initFields, segOffset, regOffset])]
      rfl
  reg r := by
    cases r
    case rdi | rsi | rsp => exact loadWord_initField (by simp [initFields, initialProcessor])
    all_goals exact loadWord_initZero (by decide) (by simp [initFields, segOffset, regOffset])
  fx := initContext_fx

theorem initContext_of_not_in {x : Address} (h : ¬ InBlock x ctx size) :
    initContext mem ctx f id data cr3 stackEnd x = mem x := by
  have hwords : ¬ InBlock x ctx 0xc0 := fun hin => h (hin.trans_le (by decide))
  have hmxcsr : ¬ InBlock x (ctx + BitVec.ofNat 64 (0xc0 + 24)) 4 := fun hin => h (hin.of_sub (by decide) (by decide))
  unfold initContext
  rw [ByteMemory.storeBlock_of_not_in hmxcsr, ByteMemory.storeFields_of_not_in (by decide) initFields_inside hwords,
    ByteMemory.storeBlock_of_not_in h]
/-- The stack is as after a call: eight bytes above a multiple of 16. -/
theorem stackTop_aligned (stackEnd : Address) : (stackTop stackEnd).toNat % 16 = 8 := by
  have hmask : (stackEnd &&& ~~~0xf#64) &&& 0xf#64 = 0 := by
    rw [BitVec.and_assoc]
    simp
  unfold stackTop
  generalize stackEnd &&& ~~~0xf#64 = base at hmask
  have hmod : base.toNat % 16 = 0 := by
    have h := congrArg BitVec.toNat hmask
    rw [BitVec.toNat_and] at h
    exact (Nat.and_two_pow_sub_one_eq_mod base.toNat 4).symm.trans h
  bv_omega

end MikanSaos.Assembly
