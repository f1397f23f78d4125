import MikanSaos.Assembly.InitContext
import MikanSaos.Assembly.TimerInterrupt
import MikanSaos.Reasoning.Simulation

/-!
# VirtualProcessors — a processor for each task

The kernel has one processor, and a context in memory for each task that does not run.  Seen from the tasks, each of
them has a processor of its own: a switch, wherever it comes from, changes none of them.
-/

open Reasoning Reasoning.X64

namespace MikanSaos.Assembly

open TaskContext

variable {ι : Type*}

structure Kernel (ι : Type*) where
  cpu : Processor
  mem : ByteMemory
  current : ι
  /-- The contexts of the tasks that exist. -/
  ctx : ι → Option Address

inductive Event (ι : Type*) where
  /-- The current task runs, in the kernel or in its application. -/
  | work (cpu : Processor) (mem : ByteMemory)
  /-- `TaskManager::NewTask` and `Task::InitContext` -/
  | create (task : ι) (ctx : Address) (f id data : Word) (stackEnd : Address)
  /-- `SwitchContext`, from `TaskManager::Sleep` -/
  | sleep (next : ι)
  /-- `RestoreContext`, from `TaskManager::Finish` -/
  | finish (next : ι)
  /-- A timer interrupt; `cpu` and `mem` are what the call of `LAPICTimerOnInterrupt` leaves. -/
  | tick (cpu : Processor) (mem : ByteMemory)
  /-- A timer interrupt that calls `TaskManager::SwitchTask`; `cpu` and `mem` are before its `memcpy`. -/
  | preempt (next : ι) (cpu : Processor) (mem : ByteMemory)

/-- The stack may be written to from `n` words below `sp` on, and no context is there. -/
def StackFree (ctx : ι → Option Address) (sp : Address) (n len : Nat) : Prop :=
  ∀ i a, ctx i = some a → Apart (below sp n) len a size

/-- The contexts of the tasks that do not run are as before. -/
def OthersKept (k : Kernel ι) (mem : ByteMemory) : Prop :=
  ∀ i a, i ≠ k.current → k.ctx i = some a → ∀ x, InBlock x a size → mem x = k.mem x

/-- What the handler has made is as the prologue left it. -/
def ContextKept (alu : Word → Word → Word) (gate : Gate) (k : Kernel ι) (mem : ByteMemory) : Prop :=
  ∀ x, InBlock x (below gate.stack 94) 752 → mem x = (run alu makeContext (deliver gate ⟨k.cpu, k.mem⟩)).mem x

def Kernel.withState (k : Kernel ι) (s : State) : Kernel ι := { k with cpu := s.cpu, mem := s.mem }

theorem inHandler_of_kept {alu : Word → Word → Word} {gate : Gate} {k : Kernel ι} {mem : ByteMemory}
    (hkept : ContextKept alu gate k mem) :
    InHandler gate k.cpu mem := by
  obtain ⟨-, -, hmade, -⟩ := run_makeContext alu gate ⟨k.cpu, k.mem⟩
  exact hmade.congr hkept

variable [DecidableEq ι]

/-- The steps of the kernel.  The hypotheses are the arguments of the calls, and that nobody but the switches writes to
the contexts of tasks that do not run. -/
inductive Kernel.Step (alu : Word → Word → Word) (gate : Gate) : Kernel ι → Event ι → Kernel ι → Prop
  | work {k : Kernel ι} {cpu : Processor} {mem : ByteMemory} (hmem : OthersKept k mem) :
    Step alu gate k (.work cpu mem) (k.withState ⟨cpu, mem⟩)
  | create {k : Kernel ι} {task : ι} {a : Address} {f id data : Word} {stackEnd : Address} (hnew : k.ctx task = none)
      (hfree : ∀ i b, k.ctx i = some b → Apart a size b size) :
    Step alu gate k (.create task a f id data stackEnd)
      { k with
        mem := initContext k.mem a f id data k.cpu.cr3 stackEnd
        ctx := Function.update k.ctx task (some a) }
  | sleep {k : Kernel ι} {next : ι} {a b : Address} (hne : next ≠ k.current) (hcurrent : k.ctx k.current = some a)
      (hnext : k.ctx next = some b) (hrdi : k.cpu.reg .rdi = b) (hrsi : k.cpu.reg .rsi = a)
      (hstack : StackFree k.ctx (k.cpu.reg .rsp) 5 48) :
    Step alu gate k (.sleep next) { k.withState (run alu switchContext ⟨k.cpu, k.mem⟩) with current := next }
  | finish {k : Kernel ι} {next : ι} {b : Address} (hne : next ≠ k.current) (hnext : k.ctx next = some b)
      (hrdi : k.cpu.reg .rdi = b)
      (hstack : StackFree (Function.update k.ctx k.current none) (k.cpu.reg .rsp) 5 40) :
    Step alu gate k (.finish next)
      { k.withState (run alu restoreContext ⟨k.cpu, k.mem⟩) with
        current := next
        ctx := Function.update k.ctx k.current none }
  | tick {k : Kernel ι} {q : Processor} {mem : ByteMemory} (hcall : AtCall gate k.cpu q) (hmem : OthersKept k mem)
      (hkept : ContextKept alu gate k mem) :
    Step alu gate k (.tick q mem) (k.withState (run alu leaveHandler ⟨q, mem⟩))
  | preempt {k : Kernel ι} {next : ι} {q : Processor} {mem : ByteMemory} {a b : Address} (hne : next ≠ k.current)
      (hcurrent : k.ctx k.current = some a) (hnext : k.ctx next = some b) (hmem : OthersKept k mem)
      (hkept : ContextKept alu gate k mem) (hrdi : q.reg .rdi = b) (hstack : StackFree k.ctx (q.reg .rsp) 5 40) :
    Step alu gate k (.preempt next q mem)
      { k.withState (run alu restoreContext ⟨q, mem.copyBlock a (below gate.stack 94) size⟩) with current := next }

/-! ## The processors of the tasks -/

@[ext]
structure Virtual (ι : Type*) where
  cpu : ι → Option Processor
  mem : ByteMemory
  current : ι
  ctx : ι → Option Address

/-- The memory is the same but for the contexts, and for the words that a switch pushes. -/
def SameMemory (ctx : ι → Option Address) (sp : Address) (mem mem' : ByteMemory) : Prop :=
  ∀ x, (∀ i a, ctx i = some a → ¬ InBlock x a size) → ¬ InBlock x (below sp 5) 40 → mem' x = mem x

inductive Virtual.Step : Virtual ι → Event ι → Virtual ι → Prop
  | work {v : Virtual ι} {cpu : Processor} {mem : ByteMemory} :
    Step v (.work cpu mem) { v with cpu := Function.update v.cpu v.current (some cpu), mem := mem }
  | create {v : Virtual ι} {task : ι} {a : Address} {f id data : Word} {stackEnd : Address} {p : Processor}
      {mem : ByteMemory} (hnew : v.ctx task = none) (hcpu : v.cpu v.current = some p)
      (hmem : ∀ x, ¬ InBlock x a size → mem x = v.mem x) :
    Step v (.create task a f id data stackEnd)
      { v with
        cpu := Function.update v.cpu task (some (initialProcessor f id data p.cr3 stackEnd))
        mem := mem
        ctx := Function.update v.ctx task (some a) }
  | sleep {v : Virtual ι} {next : ι} {p : Processor} {mem : ByteMemory} (hcpu : v.cpu v.current = some p)
      (hmem : SameMemory v.ctx (p.reg .rsp) v.mem mem) :
    Step v (.sleep next)
      { v with cpu := Function.update v.cpu v.current (some (returned ⟨p, v.mem⟩)), mem := mem, current := next }
  | finish {v : Virtual ι} {next : ι} {p : Processor} {mem : ByteMemory} (hcpu : v.cpu v.current = some p)
      (hmem : SameMemory v.ctx (p.reg .rsp) v.mem mem) :
    Step v (.finish next)
      { cpu := Function.update v.cpu v.current none
        mem := mem
        current := next
        ctx := Function.update v.ctx v.current none }
  | tick {v : Virtual ι} {q : Processor} {mem : ByteMemory} : Step v (.tick q mem) { v with mem := mem }
  | preempt {v : Virtual ι} {next : ι} {q : Processor} {mem mem' : ByteMemory}
      (hmem : SameMemory v.ctx (q.reg .rsp) mem mem') :
    Step v (.preempt next q mem) { v with mem := mem', current := next }

/-- The current task has the processor of the machine, each other one that of its context. -/
def Kernel.virtual (k : Kernel ι) : Virtual ι where
  cpu i := if i = k.current then some k.cpu else (k.ctx i).map (savedProcessor k.mem)
  mem := k.mem
  current := k.current
  ctx := k.ctx

def ContextsApart (ctx : ι → Option Address) : Prop :=
  ∀ i j a b, i ≠ j → ctx i = some a → ctx j = some b → Apart a size b size

structure Kernel.WellFormed (k : Kernel ι) : Prop where
  alive : ∃ a, k.ctx k.current = some a
  apart : ContextsApart k.ctx

variable {alu : Word → Word → Word} {gate : Gate} {k k' : Kernel ι} {e : Event ι} {es : List (Event ι)}
  {mem : ByteMemory} {p : Processor}

namespace Kernel

theorem virtual_cpu (k : Kernel ι) (i : ι) :
    k.virtual.cpu i = if i = k.current then some k.cpu else (k.ctx i).map (savedProcessor k.mem) := rfl

theorem virtual_cpu_current (k : Kernel ι) : k.virtual.cpu k.current = some k.cpu := if_pos rfl

theorem virtual_cpu_of_ne {i : ι} {a : Address} (hne : i ≠ k.current) (hctx : k.ctx i = some a)
    (hheld : Holds k.mem a p) :
    k.virtual.cpu i = some p := by
  rw [virtual_cpu, if_neg hne, hctx, Option.map_some, hheld.savedProcessor_eq]

theorem virtual_cpu_gone {i : ι} (hne : i ≠ k.current) (hctx : k.ctx i = none) : k.virtual.cpu i = none := by
  rw [virtual_cpu, if_neg hne, hctx, Option.map_none]

/-- The processors of the tasks that run neither before nor after a step. -/
theorem virtual_cpu_congr {i : ι} (hne : i ≠ k.current) (hne' : i ≠ k'.current) (hctx : k'.ctx i = k.ctx i)
    (hsame : ∀ a, k.ctx i = some a → ∀ x, InBlock x a size → k'.mem x = k.mem x) :
    k'.virtual.cpu i = k.virtual.cpu i := by
  rw [virtual_cpu, virtual_cpu, if_neg hne, if_neg hne', hctx]
  refine Option.map_congr fun a ha => ?_
  exact savedProcessor_congr (hsame a ha)

theorem virtual_work {cpu : Processor} (hmem : OthersKept k mem) :
    (k.withState ⟨cpu, mem⟩).virtual =
      { k.virtual with cpu := Function.update k.virtual.cpu k.current (some cpu), mem := mem } := by
  refine Virtual.ext (funext fun i => ?_) rfl rfl rfl
  dsimp only
  by_cases hi : i = k.current
  · subst hi
    rw [Function.update_self]
    exact virtual_cpu_current (k.withState ⟨cpu, mem⟩)
  · rw [Function.update_of_ne hi]
    exact virtual_cpu_congr hi hi rfl fun a ha => hmem i a hi ha

theorem virtual_sleep (hk : k.WellFormed) {next : ι} {a b : Address} (hne : next ≠ k.current)
    (hcurrent : k.ctx k.current = some a)
    (hnext : k.ctx next = some b) (hrdi : k.cpu.reg .rdi = b) (hrsi : k.cpu.reg .rsi = a)
    (hstack : StackFree k.ctx (k.cpu.reg .rsp) 5 48) :
    Virtual.Step k.virtual (.sleep next)
      { k.withState (run alu switchContext ⟨k.cpu, k.mem⟩) with current := next }.virtual := by
  have hapart := hk.apart
  obtain ⟨hcpu, hsaved, hframe⟩ := @run_switchContext alu ⟨k.cpu, k.mem⟩ (savedProcessor k.mem b)
    (by rw [hrdi]; exact holds_savedProcessor ..)
    (by rw [hrdi, hrsi]; exact hapart _ _ _ _ hne.symm hcurrent hnext)
    (by rw [hrsi]; exact hstack _ _ hcurrent)
    (by rw [hrdi]; exact (hstack _ _ hnext).mono (by decide) le_rfl)
  rw [hrsi] at hsaved hframe
  generalize run alu switchContext ⟨k.cpu, k.mem⟩ = t at *
  have hmem : SameMemory k.ctx (k.cpu.reg .rsp) k.mem t.mem :=
    fun x hx hstk => hframe x (hx _ _ hcurrent) hstk
  have hvirtual : { k.withState t with current := next }.virtual =
      { k.virtual with
        cpu := Function.update k.virtual.cpu k.current (some (returned ⟨k.cpu, k.mem⟩))
        mem := t.mem
        current := next } := by
    refine Virtual.ext (funext fun i => ?_) rfl rfl rfl
    dsimp only
    by_cases hi : i = k.current
    · subst hi
      rw [Function.update_self]
      exact virtual_cpu_of_ne hne.symm hcurrent hsaved
    · rw [Function.update_of_ne hi]
      by_cases hi' : i = next
      · subst hi'
        rw [virtual_cpu_of_ne hi hnext (holds_savedProcessor ..), ← hcpu]
        exact virtual_cpu_current { k.withState t with current := i }
      · refine virtual_cpu_congr hi hi' rfl fun c hc x hx => hframe x (fun h => ?_) fun h => ?_
        · exact hapart _ _ _ _ hi hc hcurrent x hx h
        · exact hstack _ _ hc x (h.trans_le (by decide)) hx
  rw [hvirtual]
  exact .sleep (virtual_cpu_current k) hmem


theorem virtual_create (hk : k.WellFormed) {task : ι} {a : Address} {f id data : Word} {stackEnd : Address}
    (hnew : k.ctx task = none)
    (hfree : ∀ i b, k.ctx i = some b → Apart a size b size) :
    Virtual.Step k.virtual (.create task a f id data stackEnd)
      ({ k with
        mem := initContext k.mem a f id data k.cpu.cr3 stackEnd
        ctx := Function.update k.ctx task (some a) } : Kernel ι).virtual := by
  obtain ⟨c, hc⟩ := hk.alive
  have hne : k.current ≠ task := by
    rintro rfl
    rw [hnew] at hc
    cases hc
  have hvirtual : ({ k with
        mem := initContext k.mem a f id data k.cpu.cr3 stackEnd
        ctx := Function.update k.ctx task (some a) } : Kernel ι).virtual = { k.virtual with
          cpu := Function.update k.virtual.cpu task (some (initialProcessor f id data k.cpu.cr3 stackEnd))
          mem := initContext k.mem a f id data k.cpu.cr3 stackEnd
          ctx := Function.update k.ctx task (some a) } := by
    refine Virtual.ext (funext fun i => ?_) rfl rfl rfl
    dsimp only
    by_cases hi : i = task
    · subst hi
      rw [Function.update_self]
      exact virtual_cpu_of_ne hne.symm (Function.update_self ..) holds_initContext
    · rw [Function.update_of_ne hi]
      by_cases hi' : i = k.current
      · subst hi'
        rw [virtual_cpu_current]
        exact (virtual_cpu_current k).symm
      · exact virtual_cpu_congr hi' hi' (Function.update_of_ne hi ..) fun b hb x hx =>
          initContext_of_not_in fun h => hfree _ _ hb x h hx
  rw [hvirtual]
  exact .create hnew (virtual_cpu_current k) fun x hx => initContext_of_not_in hx

/-- The current task changes to `next`, with the processor of its context; `i` is what becomes of the others. -/
theorem virtual_finish {next : ι} {b : Address} (hne : next ≠ k.current) (hnext : k.ctx next = some b)
      (hrdi : k.cpu.reg .rdi = b)
      (hstack : StackFree (Function.update k.ctx k.current none) (k.cpu.reg .rsp) 5 40) :
    Virtual.Step k.virtual (.finish next)
      { k.withState (run alu restoreContext ⟨k.cpu, k.mem⟩) with
        current := next
        ctx := Function.update k.ctx k.current none }.virtual := by
  have hnext' : Function.update k.ctx k.current none next = some b := by rw [Function.update_of_ne hne, hnext]
  obtain ⟨hcpu, hframe⟩ := @restoreContext_spec alu ⟨k.cpu, k.mem⟩ (savedProcessor k.mem b)
    (by rw [hrdi]; exact holds_savedProcessor ..) (by rw [hrdi]; exact hstack _ _ hnext')
  generalize run alu restoreContext ⟨k.cpu, k.mem⟩ = t at *
  have hvirtual : { k.withState t with current := next, ctx := Function.update k.ctx k.current none }.virtual =
      { cpu := Function.update k.virtual.cpu k.current none
        mem := t.mem
        current := next
        ctx := Function.update k.ctx k.current none } := by
    refine Virtual.ext (funext fun i => ?_) rfl rfl rfl
    dsimp only
    by_cases hi : i = k.current
    · subst hi
      rw [Function.update_self]
      exact virtual_cpu_gone hne.symm (Function.update_self ..)
    · rw [Function.update_of_ne hi]
      by_cases hi' : i = next
      · subst hi'
        rw [virtual_cpu_of_ne hi hnext (holds_savedProcessor ..), ← hcpu]
        exact if_pos rfl
      · exact virtual_cpu_congr hi hi' (Function.update_of_ne hi ..) fun c hc x hx => hframe x fun h =>
          hstack i c (by rw [Function.update_of_ne hi, hc]) x h hx
  rw [hvirtual]
  exact .finish (virtual_cpu_current k) fun x hx hstk => hframe x hstk


/-- The interrupted task goes on with the processor it had. -/
theorem virtual_tick {q : Processor} (hcall : AtCall gate k.cpu q) (hmem : OthersKept k mem)
    (hkept : ContextKept alu gate k mem) :
    (k.withState (run alu leaveHandler ⟨q, mem⟩)).virtual = { k.virtual with mem := mem } := by
  rw [run_leaveHandler (inHandler_of_kept hkept) hcall, virtual_work hmem]
  refine Virtual.ext ?_ rfl rfl rfl
  exact Function.update_eq_self_iff.mpr (virtual_cpu_current k).symm

theorem virtual_preempt (hk : k.WellFormed) {next : ι} {q : Processor} {a b : Address} (hne : next ≠ k.current)
      (hcurrent : k.ctx k.current = some a) (hnext : k.ctx next = some b) (hmem : OthersKept k mem)
      (hkept : ContextKept alu gate k mem) (hrdi : q.reg .rdi = b) (hstack : StackFree k.ctx (q.reg .rsp) 5 40) :
    Virtual.Step k.virtual (.preempt next q mem)
      { k.withState (run alu restoreContext ⟨q, mem.copyBlock a (below gate.stack 94) size⟩) with
        current := next }.virtual := by
  have hcopied : Holds (mem.copyBlock a (below gate.stack 94) size) a k.cpu := (inHandler_of_kept hkept).holds.copyBlock
  have hothers : ∀ i c, i ≠ k.current → k.ctx i = some c → ∀ x, InBlock x c size →
      mem.copyBlock a (below gate.stack 94) size x = k.mem x := by
    intro i c hi hc x hx
    rw [← hmem i c hi hc x hx]
    exact ByteMemory.storeBlock_of_not_in fun h => hk.apart _ _ _ _ hi hc hcurrent x hx h
  have hnextHeld : Holds (mem.copyBlock a (below gate.stack 94) size) b (savedProcessor k.mem b) :=
    (holds_savedProcessor k.mem b).congr (hothers _ _ hne hnext)
  have hcopies : ∀ x, ¬ InBlock x a size → mem.copyBlock a (below gate.stack 94) size x = mem x :=
    fun x hx => ByteMemory.storeBlock_of_not_in hx
  generalize mem.copyBlock a (below gate.stack 94) size = copied at *
  obtain ⟨hcpu, hframe⟩ := @restoreContext_spec alu ⟨q, copied⟩ (savedProcessor k.mem b)
    (by rw [hrdi]; exact hnextHeld) (by rw [hrdi]; exact hstack _ _ hnext)
  generalize run alu restoreContext ⟨q, copied⟩ = t at *
  have hvirtual : { k.withState t with current := next }.virtual =
      { k.virtual with mem := t.mem, current := next } := by
    refine Virtual.ext (funext fun i => ?_) rfl rfl rfl
    dsimp only
    by_cases hi : i = k.current
    · subst hi
      rw [virtual_cpu_current]
      refine virtual_cpu_of_ne hne.symm hcurrent (hcopied.congr fun x hx => hframe x fun h => ?_)
      exact hstack _ _ hcurrent x h hx
    · by_cases hi' : i = next
      · subst hi'
        rw [virtual_cpu_of_ne hi hnext (holds_savedProcessor ..), ← hcpu]
        exact virtual_cpu_current { k.withState t with current := i }
      · refine virtual_cpu_congr hi hi' rfl fun c hc x hx => (hframe x fun h => ?_).trans (hothers i c hi hc x hx)
        exact hstack _ _ hc x h hx
  rw [hvirtual]
  refine .preempt fun x hx hstk => (hframe x hstk).trans (hcopies x (hx _ _ hcurrent))

/-! ## Runs -/

theorem contextsApart_create {ctx : ι → Option Address} {task : ι} {a : Address} (h : ContextsApart ctx)
    (hfree : ∀ i b, ctx i = some b → Apart a size b size) : ContextsApart (Function.update ctx task (some a)) := by
  have hold : ∀ i b, i ≠ task → Function.update ctx task (some a) i = some b → ctx i = some b := by
    intro i b hi hb
    rwa [Function.update_of_ne hi] at hb
  intro i j b c hij hb hc
  by_cases hi : i = task
  · subst hi
    rw [Function.update_self] at hb
    cases hb
    exact hfree j c (hold j c hij.symm hc)
  · by_cases hj : j = task
    · subst hj
      rw [Function.update_self] at hc
      cases hc
      exact (hfree i b (hold i b hi hb)).symm
    · exact h i j b c hij (hold i b hi hb) (hold j c hj hc)

theorem contextsApart_finish {ctx : ι → Option Address} (h : ContextsApart ctx) (task : ι) :
    ContextsApart (Function.update ctx task none) := by
  have hold : ∀ i b, Function.update ctx task none i = some b → ctx i = some b := by
    intro i b hb
    by_cases hi : i = task
    · subst hi
      rw [Function.update_self] at hb
      cases hb
    · rwa [Function.update_of_ne hi] at hb
  exact fun i j b c hij hb hc => h i j b c hij (hold i b hb) (hold j c hc)

theorem Step.wellFormed (hk : k.WellFormed) (h : Step alu gate k e k') : k'.WellFormed := by
  obtain ⟨c, hc⟩ := hk.alive
  cases h with
  | work => exact ⟨hk.alive, hk.apart⟩
  | tick => exact ⟨hk.alive, hk.apart⟩
  | sleep _ _ hnext => exact ⟨⟨_, hnext⟩, hk.apart⟩
  | preempt _ _ hnext => exact ⟨⟨_, hnext⟩, hk.apart⟩
  | create hnew hfree =>
    refine ⟨⟨c, (Function.update_of_ne ?_ ..).trans hc⟩, contextsApart_create hk.apart hfree⟩
    intro heq
    rw [← heq, hc] at hnew
    cases hnew
  | finish hne hnext => exact ⟨⟨_, (Function.update_of_ne hne ..).trans hnext⟩, contextsApart_finish hk.apart _⟩

/-- One step of the kernel is one of the tasks' own processors. -/
theorem Step.virtual (hk : k.WellFormed) (h : Step alu gate k e k') : Virtual.Step k.virtual e k'.virtual := by
  cases h with
  | work hmem =>
    rw [virtual_work hmem]
    exact .work
  | create hnew hfree => exact virtual_create hk hnew hfree
  | sleep hne hcurrent hnext hrdi hrsi hstack => exact virtual_sleep hk hne hcurrent hnext hrdi hrsi hstack
  | finish hne hnext hrdi hstack => exact virtual_finish hne hnext hrdi hstack
  | tick hcall hmem hkept =>
    rw [virtual_tick hcall hmem hkept]
    exact .tick
  | preempt hne hcurrent hnext hmem hkept hrdi hstack =>
    exact virtual_preempt hk hne hcurrent hnext hmem hkept hrdi hstack

theorem simulates (alu : Word → Word → Word) (gate : Gate) :
    Simulates (fun (k : Kernel ι) v => k.WellFormed ∧ v = k.virtual) (Step alu gate) Virtual.Step := by
  rintro k _ e k' ⟨hk, rfl⟩ hstep
  exact ⟨k'.virtual, hstep.virtual hk, hstep.wellFormed hk, rfl⟩

/-- Any run of the kernel is one of machines that each run a task of their own. -/
theorem run_virtual (hk : k.WellFormed) (h : Run (Step alu gate) k es k') :
    k'.WellFormed ∧ Run Virtual.Step k.virtual es k'.virtual := by
  obtain ⟨v, hrun, hk', rfl⟩ := (simulates alu gate).run h ⟨hk, rfl⟩
  exact ⟨hk', hrun⟩

end Kernel

namespace Virtual

variable {v v' : Virtual ι} {i : ι} {a : Address}

/-- A task that does not run keeps its processor. -/
theorem Step.kept (h : Step v e v') (hne : i ≠ v.current) (halive : v.ctx i = some a) :
    v'.cpu i = v.cpu i ∧ v'.ctx i = some a := by
  cases h with
  | work => exact ⟨Function.update_of_ne hne .., halive⟩
  | @create task _ _ _ _ _ _ _ hnew =>
    have hi : i ≠ task := by
      rintro rfl
      rw [hnew] at halive
      cases halive
    exact ⟨Function.update_of_ne hi .., (Function.update_of_ne hi ..).trans halive⟩
  | sleep => exact ⟨Function.update_of_ne hne .., halive⟩
  | finish => exact ⟨Function.update_of_ne hne .., (Function.update_of_ne hne ..).trans halive⟩
  | tick => exact ⟨rfl, halive⟩
  | preempt => exact ⟨rfl, halive⟩

/-- The processor that a task goes on with when it runs again. -/
def leaving (p : Processor) (mem : ByteMemory) : Event ι → Processor
  | .sleep _ => returned ⟨p, mem⟩
  | _ => p

theorem Step.left (h : Step v e v') (hcpu : v.cpu v.current = some p) (hleft : v'.current ≠ v.current)
    (halive : v'.ctx v.current = some a) : v'.cpu v.current = some (leaving p v.mem e) := by
  cases h with
  | work => exact absurd rfl hleft
  | create => exact absurd rfl hleft
  | tick => exact absurd rfl hleft
  | finish =>
    dsimp only at halive
    rw [Function.update_self] at halive
    cases halive
  | sleep hcpu' =>
    rw [hcpu] at hcpu'
    cases hcpu'
    exact Function.update_self ..
  | preempt => exact hcpu

end Virtual

namespace Kernel

/-- Runs in which the task never is the current one before the end. -/
theorem kept_away {i : ι} {a : Address} (hk : k.WellFormed) (halive : k.ctx i = some a)
    (hrun : Run (fun s e t => Step alu gate s e t ∧ s.current ≠ i) k es k') :
    k'.virtual.cpu i = k.virtual.cpu i := by
  induction hrun with
  | nil => rfl
  | cons hstep _ ih =>
    obtain ⟨hcpu, hctx⟩ := (hstep.1.virtual hk).kept hstep.2.symm halive
    exact (ih (hstep.1.wellFormed hk) hctx).trans hcpu

/-- A task that has left the processor, by sleeping or by an interrupt, goes on with the processor it left with,
whatever the other tasks do meanwhile. -/
theorem resumed {k₁ k₂ : Kernel ι} {a : Address} (hk : k.WellFormed) (hleave : Step alu gate k e k₁)
    (hleft : k₁.current ≠ k.current) (halive : k₁.ctx k.current = some a)
    (hrun : Run (fun s e t => Step alu gate s e t ∧ s.current ≠ k.current) k₁ es k₂) (hback : k₂.current = k.current) :
    k₂.cpu = Virtual.leaving k.cpu k.mem e := by
  have hleaving : k₁.virtual.cpu k.current = some (Virtual.leaving k.cpu k.mem e) :=
    (hleave.virtual hk).left (virtual_cpu_current k) hleft halive
  have haway := kept_away (hleave.wellFormed hk) halive hrun
  have hcpu := virtual_cpu_current k₂
  rw [hback, haway, hleaving] at hcpu
  exact (Option.some.inj hcpu).symm

end Kernel

/-! ## Two tasks that take turns -/

def callingSwitch (next current rsp : Word) : Processor where
  reg
    | .rdi => next
    | .rsi => current
    | .rsp => rsp
    | _ => 0
  rip := 0
  rflags := 0x202
  cr3 := 0
  seg _ := 0
  fx _ := 0

def twoTasks : Kernel Bool where
  cpu := callingSwitch 0x2000 0x1000 0x9000
  mem _ := 0
  current := false
  ctx task := some (if task then 0x2000 else 0x1000)

theorem twoTasks_wellFormed : twoTasks.WellFormed := by
  refine ⟨⟨0x1000, rfl⟩, fun i j a b hij ha hb x hx hy => ?_⟩
  cases i <;> cases j <;> cases ha <;> cases hb
  all_goals first | exact hij rfl | skip
  all_goals
    unfold InBlock size at *
    simp at *
    bv_omega

theorem twoTasks_stackFree {sp : Address} (hsp : sp = 0x9000 ∨ sp = 0xb000) : StackFree twoTasks.ctx sp 5 48 := by
  intro i a ha x hx hy
  have ha' : a = 0x1000 ∨ a = 0x2000 := by
    cases i <;> cases ha
    · exact .inl rfl
    · exact .inr rfl
  unfold InBlock below size at *
  simp at *
  rcases hsp with rfl | rfl <;> rcases ha' with rfl | rfl <;> bv_omega

def otherTask (alu : Word → Word → Word) : Kernel Bool :=
  { twoTasks.withState (run alu switchContext ⟨twoTasks.cpu, twoTasks.mem⟩) with current := true }

/-- The other task runs until it calls `SwitchContext`, too. -/
def otherSleeps (alu : Word → Word → Word) : Kernel Bool :=
  (otherTask alu).withState ⟨callingSwitch 0x1000 0x2000 0xb000, (otherTask alu).mem⟩

def backAgain (alu : Word → Word → Word) : Kernel Bool :=
  { (otherSleeps alu).withState (run alu switchContext ⟨(otherSleeps alu).cpu, (otherSleeps alu).mem⟩) with
    current := false }

theorem step_otherTask (alu : Word → Word → Word) (gate : Gate) :
    Kernel.Step alu gate twoTasks (.sleep true) (otherTask alu) :=
  .sleep Bool.false_ne_true.symm rfl rfl rfl rfl (twoTasks_stackFree (.inl rfl))

theorem step_otherSleeps (alu : Word → Word → Word) (gate : Gate) :
    Kernel.Step alu gate (otherTask alu) (.work (callingSwitch 0x1000 0x2000 0xb000) (otherTask alu).mem)
      (otherSleeps alu) :=
  .work fun _ _ _ _ _ _ => rfl

theorem step_backAgain (alu : Word → Word → Word) (gate : Gate) :
    Kernel.Step alu gate (otherSleeps alu) (.sleep false) (backAgain alu) :=
  .sleep Bool.false_ne_true rfl rfl rfl rfl (twoTasks_stackFree (.inr rfl))

/-- Flags that an addition leaves as they are, and an interrupt stack. -/
def exampleAlu : Word → Word → Word := fun flags _ => flags

def exampleGate : Gate where
  handler := 0x3000
  stack := 0x20000
  cs := kKernelCS
  ss := 0
  rflags flags := flags

/-- The first task sleeps, then the second one does. -/
theorem twoTasks_virtual : Run Virtual.Step twoTasks.virtual
    [.sleep true, .work (callingSwitch 0x1000 0x2000 0xb000) (otherTask exampleAlu).mem, .sleep false]
    (backAgain exampleAlu).virtual :=
  (Kernel.run_virtual twoTasks_wellFormed
    (.cons (step_otherTask exampleAlu exampleGate)
      (.cons (step_otherSleeps ..) (.cons (step_backAgain ..) (.nil _))))).2

theorem twoTasks_resumed : (backAgain exampleAlu).cpu = returned ⟨twoTasks.cpu, twoTasks.mem⟩ :=
  Kernel.resumed twoTasks_wellFormed (step_otherTask exampleAlu exampleGate) Bool.false_ne_true.symm rfl
    (.cons ⟨step_otherSleeps .., Bool.false_ne_true.symm⟩ (.cons ⟨step_backAgain .., Bool.false_ne_true.symm⟩ (.nil _)))
    rfl

end MikanSaos.Assembly
