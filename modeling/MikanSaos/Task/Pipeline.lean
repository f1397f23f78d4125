import MikanSaos.Task.PipeDescriptor
import MikanSaos.Task.Scheduling

/-!
# Pipeline — terminals that run `A | B`

Every terminal may run a command line with a pipe, the terminal of a right-hand side included.  A step
is a block that the source runs with interrupts disabled, so that timer and device interrupts stand
between any two steps.  The pipe refers to the task of the right-hand side directly: `stale` records
the messages sent through it to a task that `Finish` had already removed.
-/

open Reasoning

namespace MikanSaos

open TaskManager

/-- How far the terminal of a task is in `ExecuteLine`. -/
inductive TerminalPhase where
  /-- No pipe is open: the task runs a command, reads its input or waits for events. -/
  | command
  /-- The left-hand side runs; `pending` is what the current `Write` has not sent yet. -/
  | writing (subtask : Nat) (pending : List UInt8)
  /-- After `FinishWrite`, in `WaitFinish(subtask)`. -/
  | waiting (subtask : Nat)
  deriving DecidableEq

structure Pipelines where
  tm : TaskManager
  phase : Nat → TerminalPhase
  pipe : Nat → PipeDescriptor
  stale : List Nat

namespace Pipelines

def init : Pipelines := ⟨.init, fun _ => .command, fun t => ⟨t, [], false⟩, []⟩

/-- The state after the pipe to `subtask` has sent a message and the sender has moved on. -/
def sent (s : Pipelines) (tm : TaskManager) (sender subtask : Nat) (phase : TerminalPhase) :
    Pipelines :=
  { s with tm := tm, phase := Function.update s.phase sender phase,
           stale := if subtask ∈ s.tm.tasks then s.stale else subtask :: s.stale }

end Pipelines

/-- What interrupt handlers and the rest of the kernel do with the task manager: it names tasks by
their ids. -/
def SchedulerCall.ById : SchedulerCall → Prop
  | newTask | switchTask | wakeupId _ | sendMessage _ _ => True
  | _ => False

/-- `ReceiveMessage`, or `Sleep` where the mailbox is empty. -/
def TaskManager.receiveOrSleep (tm : TaskManager) (task : Nat) : Option TaskManager :=
  match tm.taskReceiveMessage task with
  | (none, tm) => tm.sleep task
  | (some _, tm) => some tm

inductive PipeEvent where
  | byId (call : SchedulerCall)
  | receive
  | openPipe
  | write (buf : List UInt8)
  | sendChunk
  | finishWrite
  | waitRound
  | read (len : Nat)
  | finish (task : Nat) (exitCode : Int)

/-- One step; all but `byId` are steps of the running task `t`. -/
inductive PipeStep (s : Pipelines) : PipeEvent → Pipelines → Prop
  | byId (call : SchedulerCall) (tm : TaskManager) (hcall : call.ById)
      (hrun : call.run s.tm = some tm) : PipeStep s (.byId call) { s with tm := tm }
  | receive (t : Nat) (tm : TaskManager) (hcur : s.tm.currentTask = some t) (hidle : t ≠ idleId)
      (hphase : ∀ b, s.phase t ≠ .waiting b)
      (hrun : s.tm.receiveOrSleep t = some tm) : PipeStep s .receive { s with tm := tm }
  | openPipe (t : Nat) (tm : TaskManager) (hcur : s.tm.currentTask = some t) (hidle : t ≠ idleId)
      (hphase : s.phase t = .command)
      (hrun : s.tm.newTask.2.wakeup s.tm.newTask.1 = some tm) :
      PipeStep s .openPipe
        { s with tm := tm,
                 phase := Function.update s.phase t (.writing s.tm.newTask.1 []),
                 pipe := Function.update s.pipe s.tm.newTask.1 ⟨s.tm.newTask.1, [], false⟩ }
  | write (t b : Nat) (buf : List UInt8) (hcur : s.tm.currentTask = some t)
      (hphase : s.phase t = .writing b []) :
      PipeStep s (.write buf) { s with phase := Function.update s.phase t (.writing b buf) }
  | sendChunk (t b : Nat) (pending rest : List UInt8) (tm : TaskManager)
      (hcur : s.tm.currentTask = some t) (hphase : s.phase t = .writing b pending)
      (hpending : pending ≠ []) (hrun : (s.pipe b).writeRound s.tm pending = some (rest, tm)) :
      PipeStep s .sendChunk (s.sent tm t (s.pipe b).task (.writing b rest))
  | finishWrite (t b : Nat) (tm : TaskManager) (hcur : s.tm.currentTask = some t)
      (hphase : s.phase t = .writing b []) (hrun : (s.pipe b).finishWrite s.tm = some tm) :
      PipeStep s .finishWrite (s.sent tm t (s.pipe b).task (.waiting b))
  | waitRound (t b : Nat) (exitCode : Option Int) (tm : TaskManager)
      (hcur : s.tm.currentTask = some t) (hidle : t ≠ idleId) (hphase : s.phase t = .waiting b)
      (hrun : s.tm.waitFinishRound t b = some (exitCode, tm)) :
      PipeStep s .waitRound
        { s with tm := tm,
                 phase := Function.update s.phase t
                   (if exitCode.isSome then .command else .waiting b) }
  | read (t len : Nat) (bytes : Option (List UInt8)) (fd : PipeDescriptor) (tm : TaskManager)
      (hcur : s.tm.currentTask = some t) (hidle : t ≠ idleId)
      (hphase : ∀ b, s.phase t ≠ .waiting b)
      (hrun : (s.pipe t).readRound s.tm len = some (bytes, fd, tm)) :
      PipeStep s (.read len) { s with tm := tm, pipe := Function.update s.pipe t fd }
  | finish (t : Nat) (exitCode : Int) (tm : TaskManager) (hcur : s.tm.currentTask = some t)
      (hidle : t ≠ idleId) (hphase : s.phase t = .command) (hrun : s.tm.finish exitCode = some tm) :
      PipeStep s (.finish t exitCode) { s with tm := tm }

/-- A step in which a task finishes only after the pipe that leads to it has been closed. -/
def ClosedStep (s s' : Pipelines) : Prop :=
  ∃ event, PipeStep s event s' ∧ ∀ t exitCode, event = .finish t exitCode →
    ∀ a pending, s.phase a ≠ .writing t pending

namespace TaskManager

/-- As `Keeps`, but new tasks may have come up. -/
structure Extends (tm tm' : TaskManager) : Prop where
  tasks : ∀ t ∈ tm.tasks, t ∈ tm'.tasks
  finishTasks : tm'.finishTasks = tm.finishTasks
  finishWaiter : tm'.finishWaiter = tm.finishWaiter

theorem Keeps.extends {tm tm' : TaskManager} (h : Keeps tm tm') : Extends tm tm' :=
  ⟨fun t ht => by rw [h.tasks]; exact ht, h.finishTasks, h.finishWaiter⟩

theorem extends_newTask (tm : TaskManager) : Extends tm tm.newTask.2 :=
  ⟨fun _ ht => List.mem_append_left _ ht, rfl, rfl⟩

theorem Extends.trans {tm₁ tm₂ tm₃ : TaskManager} (h : Extends tm₁ tm₂) (h' : Extends tm₂ tm₃) :
    Extends tm₁ tm₃ :=
  ⟨fun t ht => h'.tasks t (h.tasks t ht), h'.finishTasks.trans h.finishTasks,
    h'.finishWaiter.trans h.finishWaiter⟩

theorem Sound.byId {tm tm' : TaskManager} (h : tm.Sound) {call : SchedulerCall} (hcall : call.ById)
    (hrun : call.run tm = some tm') : tm'.Sound ∧ Extends tm tm' := by
  -- an operation that looks its task up returns a sound state
  have looked : ∀ {op : Nat → Option TaskManager} (id : Nat),
      (id ∈ tm.tasks → ∃ tm', op id = some tm' ∧ tm'.Sound ∧ Keeps tm tm') →
      (tm.withTaskId id op).map Prod.snd = some tm' → tm'.Sound ∧ Extends tm tm' := by
    intro op id hop hmap
    obtain ⟨err, tm'', heq, hs, hk⟩ := h.withTaskId id hop
    rw [heq] at hmap
    obtain rfl : tm'' = tm' := Option.some.inj hmap
    exact ⟨hs, hk.extends⟩
  cases call with
  | newTask =>
    obtain rfl := Option.some.inj hrun
    exact ⟨h.newTask, extends_newTask tm⟩
  | switchTask =>
    obtain ⟨tm'', heq, hs, hk⟩ := h.switchTask
    obtain rfl : tm'' = tm' := Option.some.inj (heq.symm.trans hrun)
    exact ⟨hs, hk.extends⟩
  | wakeupId id => exact looked id (fun hid => h.wakeup hid) hrun
  | sendMessage id msg => exact looked id (fun hid => h.taskSendMessage hid msg) hrun
  | sleep task => cases hcall
  | sleepId id => cases hcall
  | wakeup task => cases hcall
  | finish exitCode => cases hcall

theorem Sound.receiveOrSleep {tm tm' : TaskManager} (h : tm.Sound) {t : Nat} (hidle : t ≠ idleId)
    (hrun : tm.receiveOrSleep t = some tm') : tm'.Sound ∧ Keeps tm tm' := by
  unfold TaskManager.receiveOrSleep taskReceiveMessage at hrun
  cases hmsgs : (tm.task t).msgs with
  | nil =>
    simp only [hmsgs] at hrun
    obtain ⟨tm'', heq, hs, hk⟩ := h.sleep hidle
    obtain rfl : tm'' = tm' := Option.some.inj (heq.symm.trans hrun)
    exact ⟨hs, hk⟩
  | cons m msgs =>
    simp only [hmsgs] at hrun
    obtain rfl := Option.some.inj hrun
    exact ⟨h.setMsgs t msgs, rfl, rfl, rfl⟩

end TaskManager

open TaskManager

theorem PipeDescriptor.readMessage_task (fd : PipeDescriptor) (len : Nat) (msg : Message) :
    (fd.readMessage len msg).2.task = fd.task := by
  unfold readMessage
  split <;> rfl

theorem PipeDescriptor.readRound_keeps {fd fd' : PipeDescriptor} {tm tm' : TaskManager} {len : Nat}
    {bytes : Option (List UInt8)} (h : tm.Sound) (hidle : fd.task ≠ idleId)
    (hrun : fd.readRound tm len = some (bytes, fd', tm')) :
    tm'.Sound ∧ TaskManager.Keeps tm tm' ∧ fd'.task = fd.task := by
  unfold readRound taskReceiveMessage at hrun
  by_cases hdata : fd.data ≠ []
  · rw [if_pos hdata] at hrun
    cases hrun
    exact ⟨h, TaskManager.Keeps.refl tm, rfl⟩
  rw [if_neg hdata] at hrun
  by_cases hclosed : fd.closed = true
  · rw [if_pos hclosed] at hrun
    cases hrun
    exact ⟨h, TaskManager.Keeps.refl tm, rfl⟩
  rw [if_neg hclosed] at hrun
  cases hmsgs : (tm.task fd.task).msgs with
  | nil =>
    obtain ⟨tm'', heq, hs, hk⟩ := h.sleep hidle
    simp only [hmsgs, heq, Option.map_some] at hrun
    cases hrun
    exact ⟨hs, hk, rfl⟩
  | cons m msgs =>
    have hs := h.setMsgs fd.task msgs
    simp only [hmsgs] at hrun
    cases hrun
    exact ⟨hs, ⟨rfl, rfl, rfl⟩, fd.readMessage_task len m⟩

namespace Pipelines

/-- Every open pipe leads to a living task, and a task that another one waits for has not finished. -/
structure Inv (s : Pipelines) : Prop where
  sound : s.tm.Sound
  pipe : ∀ b, (s.pipe b).task = b
  target : ∀ a b pending, s.phase a = .writing b pending → b ∈ s.tm.tasks
  waiter : ∀ id w, s.tm.finishWaiter id = some w →
    s.phase w = .waiting id ∧ s.tm.finishTasks id = none
  stale : s.stale = []

theorem Inv.current_mem {s : Pipelines} (h : s.Inv) {t : Nat} (hcur : s.tm.currentTask = some t) :
    t ∈ s.tm.tasks := by
  obtain ⟨u, hu, hcur'⟩ := h.sound.exists_currentTask
  obtain rfl : u = t := Option.some.inj (hcur'.symm.trans hcur)
  exact hu

/-- A task that nobody waits for moves on to a phase in which it writes to a living task only. -/
theorem Inv.advance {s : Pipelines} (h : s.Inv) {tm : TaskManager} (hsound : tm.Sound)
    (hext : Extends s.tm tm) (t : Nat) (phase : TerminalPhase)
    (hphase : ∀ b, s.phase t ≠ .waiting b)
    (htarget : ∀ b pending, phase = .writing b pending → b ∈ tm.tasks) :
    Inv { s with tm := tm, phase := Function.update s.phase t phase } := by
  refine ⟨hsound, h.pipe, ?_, ?_, h.stale⟩
  · intro a b pending ha
    dsimp only at ha ⊢
    by_cases hat : a = t
    · rw [hat, Function.update_self] at ha
      exact htarget b pending ha
    · rw [Function.update_of_ne hat] at ha
      exact hext.tasks b (h.target a b pending ha)
  · intro id w hw
    rw [hext.finishWaiter] at hw
    obtain ⟨hwait, hnone⟩ := h.waiter id w hw
    have hne : w ≠ t := by
      rintro rfl
      exact hphase id hwait
    dsimp only
    rw [Function.update_of_ne hne, hext.finishTasks]
    exact ⟨hwait, hnone⟩

theorem Inv.extend {s : Pipelines} (h : s.Inv) {tm : TaskManager} (hsound : tm.Sound)
    (hext : Extends s.tm tm) : Inv { s with tm := tm } := by
  refine ⟨hsound, h.pipe, fun a b p ha => hext.tasks b (h.target a b p ha), ?_, h.stale⟩
  intro id w hw
  rw [hext.finishWaiter] at hw
  rw [hext.finishTasks]
  exact h.waiter id w hw

/-- A message sent through an open pipe reaches a living task. -/
theorem Inv.sent {s : Pipelines} (h : s.Inv) {t b : Nat} {pending : List UInt8} {msg : Message}
    {phase : TerminalPhase} {tm : TaskManager} (hphase : s.phase t = .writing b pending)
    (hsend : s.tm.taskSendMessage (s.pipe b).task msg = some tm)
    (htarget : ∀ b' pending', phase = .writing b' pending' → b' = b) :
    (s.sent tm t (s.pipe b).task phase).Inv := by
  have hb := h.target t b pending hphase
  rw [h.pipe b] at hsend ⊢
  obtain ⟨tm', heq, hs, hk⟩ := h.sound.taskSendMessage hb msg
  obtain rfl : tm' = tm := Option.some.inj (heq.symm.trans hsend)
  have hnotWaiting : ∀ b', s.phase t ≠ .waiting b' := fun b' he => by
    rw [hphase] at he
    cases he
  have hadv := h.advance hs hk.extends t phase hnotWaiting fun b' p he => by
    rw [htarget b' p he]
    exact hk.extends.tasks b hb
  unfold Pipelines.sent
  rw [if_pos hb]
  exact hadv

theorem Inv.waitRound {s : Pipelines} (h : s.Inv) {t b : Nat} {exitCode : Option Int}
    {tm : TaskManager} (hcur : s.tm.currentTask = some t) (hphase : s.phase t = .waiting b)
    (hidle : t ≠ idleId) (hrun : s.tm.waitFinishRound t b = some (exitCode, tm)) :
    Inv { s with tm := tm,
                 phase := Function.update s.phase t
                   (if exitCode.isSome then .command else .waiting b) } := by
  unfold waitFinishRound at hrun
  cases hcode : s.tm.finishTasks b with
  | some code =>
    simp only [hcode] at hrun
    cases hrun
    have hsound : Sound { s.tm with finishTasks := Function.update s.tm.finishTasks b none } :=
      ⟨h.sound.queued.congr rfl rfl (fun _ _ => rfl) (fun _ _ => rfl) (fun _ _ => .refl _)
        h.sound.queued.current_le h.sound.queued.waiter, h.sound.selected⟩
    refine ⟨hsound, h.pipe, ?_, ?_, h.stale⟩
    · intro a b' pending ha
      dsimp only at ha ⊢
      by_cases hat : a = t
      · rw [hat, Function.update_self] at ha
        cases ha
      · rw [Function.update_of_ne hat] at ha
        exact h.target a b' pending ha
    · -- nobody is registered for `b`: it has finished, so the caller is no waiter any more
      intro id w hw
      obtain ⟨hwait, hnone⟩ := h.waiter id w hw
      have hne : w ≠ t := by
        rintro rfl
        rw [hphase] at hwait
        cases hwait
        rw [hcode] at hnone
        cases hnone
      dsimp only
      refine ⟨by rw [Function.update_of_ne hne]; exact hwait, ?_⟩
      by_cases hid : id = b
      · rw [hid, Function.update_self]
      · rw [Function.update_of_ne hid]
        exact hnone
  | none =>
    obtain ⟨tm', heq, hs, hk⟩ :=
      (h.sound.setWaiter b (h.current_mem hcur)).sleep hidle
    simp only [hcode, heq, Option.map_some] at hrun
    cases hrun
    have hsame : Function.update s.phase t (if (none : Option Int).isSome then .command
        else .waiting b) = s.phase := by
      rw [if_neg (by simp), ← hphase, Function.update_eq_self]
    rw [hsame]
    refine ⟨hs, h.pipe, fun a b' p ha => hk.extends.tasks b' (h.target a b' p ha), ?_, h.stale⟩
    intro id w hw
    rw [hk.finishWaiter] at hw
    rw [hk.finishTasks]
    by_cases hid : id = b
    · rw [hid, setWaiter_self] at hw
      rw [hid]
      exact ⟨Option.some.inj hw ▸ hphase, hcode⟩
    · rw [setWaiter_of_ne _ _ hid] at hw
      exact h.waiter id w hw

/-- A task that no open pipe leads to finishes. -/
theorem Inv.finish {s : Pipelines} (h : s.Inv) {t : Nat} {exitCode : Int} {tm : TaskManager}
    (hcur : s.tm.currentTask = some t) (hidle : t ≠ idleId) (hphase : s.phase t = .command)
    (hrun : s.tm.finish exitCode = some tm)
    (hclosed : ∀ a pending, s.phase a ≠ .writing t pending) : Inv { s with tm := tm } := by
  have hwaits : ∀ id w, s.tm.finishWaiter id = some w → w ≠ t := by
    rintro id w hw rfl
    have hwait := (h.waiter id w hw).1
    rw [hphase] at hwait
    cases hwait
  obtain ⟨tm', heq, hs, htasks, hcodes, hwaiters⟩ := h.sound.finish exitCode hcur hidle hwaits
  obtain rfl : tm' = tm := Option.some.inj (heq.symm.trans hrun)
  refine ⟨hs, h.pipe, ?_, ?_, h.stale⟩
  · intro a b pending ha
    have hne : b ≠ t := by
      rintro rfl
      exact hclosed a pending ha
    rw [htasks]
    exact h.sound.queued.tasks_nodup.mem_erase_iff.mpr ⟨hne, h.target a b pending ha⟩
  · intro id w hw
    rw [hwaiters] at hw
    by_cases hid : id = t
    · rw [hid, Function.update_self] at hw
      cases hw
    · rw [Function.update_of_ne hid] at hw
      rw [hcodes, Function.update_of_ne hid]
      exact h.waiter id w hw

theorem Inv.step {s s' : Pipelines} (h : s.Inv) (hstep : ClosedStep s s') : s'.Inv := by
  obtain ⟨event, hstep, hclosed⟩ := hstep
  cases hstep with
  | byId call tm hcall hrun =>
    obtain ⟨hs, hext⟩ := h.sound.byId hcall hrun
    exact h.extend hs hext
  | receive t tm hcur hidle hphase hrun =>
    obtain ⟨hs, hk⟩ := h.sound.receiveOrSleep hidle hrun
    exact h.extend hs hk.extends
  | openPipe t tm hcur hidle hphase hrun =>
    have hnew : s.tm.newTask.1 ∈ s.tm.newTask.2.tasks :=
      List.mem_append_right _ List.mem_cons_self
    obtain ⟨tm', heq, hs, hk⟩ := h.sound.newTask.wakeup hnew
    obtain rfl : tm' = tm := Option.some.inj (heq.symm.trans hrun)
    have hadv := h.advance hs ((extends_newTask s.tm).trans hk.extends) t
      (.writing s.tm.newTask.1 []) (fun b he => by rw [hphase] at he; cases he)
      (fun b p he => by cases he; exact hk.extends.tasks _ hnew)
    refine ⟨hadv.sound, fun b => ?_, hadv.target, hadv.waiter, hadv.stale⟩
    dsimp only
    by_cases hb : b = s.tm.newTask.1
    · rw [hb, Function.update_self]
    · rw [Function.update_of_ne hb]
      exact h.pipe b
  | write t b buf hcur hphase =>
    exact h.advance h.sound (TaskManager.Keeps.refl s.tm).extends t (.writing b buf)
      (fun b' he => by rw [hphase] at he; cases he)
      (fun b' p he => by cases he; exact h.target t b [] hphase)
  | sendChunk t b pending rest tm hcur hphase hpending hrun =>
    unfold PipeDescriptor.writeRound at hrun
    obtain ⟨tm', hsend, heq⟩ := Option.map_eq_some_iff.mp hrun
    cases heq
    exact h.sent hphase hsend fun b' p he => by cases he; rfl
  | finishWrite t b tm hcur hphase hrun =>
    exact h.sent hphase hrun fun b' p he => by cases he
  | waitRound t b exitCode tm hcur hidle hphase hrun => exact h.waitRound hcur hphase hidle hrun
  | read t len bytes fd tm hcur hidle hphase hrun =>
    have htask := h.pipe t
    obtain ⟨hs, hk, hfd⟩ := PipeDescriptor.readRound_keeps h.sound (by rw [htask]; exact hidle) hrun
    have hext := h.extend hs hk.extends
    refine ⟨hext.sound, fun b => ?_, hext.target, hext.waiter, hext.stale⟩
    dsimp only
    by_cases hb : b = t
    · rw [hb, Function.update_self]
      exact hfd.trans htask
    · rw [Function.update_of_ne hb]
      exact h.pipe b
  | finish t exitCode tm hcur hidle hphase hrun =>
    exact h.finish hcur hidle hphase hrun (hclosed t exitCode rfl)

theorem Inv.of_reachable {s : Pipelines} (h : Reachable (· = .init) ClosedStep s) : s.Inv := by
  refine h.invariant ?_ fun _ _ hi hst => hi.step hst
  rintro _ rfl
  refine ⟨Sound.init, fun _ => rfl, ?_, ?_, rfl⟩
  · intro a b pending ha
    cases ha
  · intro id w hw
    cases hw

end Pipelines

end MikanSaos
