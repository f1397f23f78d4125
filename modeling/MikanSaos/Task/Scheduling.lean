import MikanSaos.Task.RunQueues

/-!
# Scheduling — every run of the task manager keeps its queues exact

A run is a sequence of the calls the kernel makes on behalf of tasks and interrupts, in any order.
-/

open Reasoning

namespace MikanSaos

/-- The calls that change the run queues.  `Task*` arguments are ids of living tasks. -/
inductive SchedulerCall where
  | newTask
  | switchTask
  | sleep (task : Nat)
  | sleepId (id : Nat)
  | wakeup (task : Nat)
  | wakeupId (id : Nat)
  | sendMessage (id : Nat) (msg : Message)
  | finish (exitCode : Int)
  deriving DecidableEq

namespace SchedulerCall

open TaskManager

def run (tm : TaskManager) : SchedulerCall → Option TaskManager
  | newTask => some tm.newTask.2
  | switchTask => tm.switchTask
  | sleep task => tm.sleep task
  | sleepId id => (tm.sleepId id).map Prod.snd
  | wakeup task => tm.wakeup task
  | wakeupId id => (tm.wakeupId id).map Prod.snd
  | sendMessage id msg => (tm.sendMessage id msg).map Prod.snd
  | finish exitCode => tm.finish exitCode

/-- A pointer names a living task, and the idle task neither sleeps nor finishes. -/
def Allowed (tm : TaskManager) : SchedulerCall → Prop
  | sleep task => task ∈ tm.tasks ∧ task ≠ idleId
  | sleepId id => id ≠ idleId
  | wakeup task => task ∈ tm.tasks
  | finish _ => tm.currentTask ≠ some idleId
  | _ => True

/-- One allowed call. -/
def Step (tm tm' : TaskManager) : Prop :=
  ∃ call : SchedulerCall, call.Allowed tm ∧ call.run tm = some tm'

end SchedulerCall

namespace TaskManager

open SchedulerCall

theorem Sound.init : TaskManager.init.Sound := by
  have htask : ∀ t ∈ TaskManager.init.tasks, t = 1 ∨ t = 2 := by decide
  have hrun : ∀ lv ≤ kMaxLevel, ∀ t ∈ TaskManager.init.running lv,
      t ∈ TaskManager.init.tasks ∧ (TaskManager.init.task t).level = lv ∧
        (TaskManager.init.task t).readyOrRunning = true := by decide
  refine ⟨⟨by decide, by decide, by decide, hrun, ?_, by decide, by decide, by decide, ?_⟩,
    by unfold Selected; decide⟩
  · intro t ht _
    rcases htask t ht with rfl | rfl <;> decide
  · exact fun id w hw => absurd hw (by simp [TaskManager.init, TaskManager.newTask, setQueue,
      setReadyOrRunning, setLevel, setTask])

/-- What holds between the calls: the queues are sound, and nobody waits for a task to finish. -/
def SoundNoWaiter (tm : TaskManager) : Prop := tm.Sound ∧ ∀ id, tm.finishWaiter id = none

/-- Every allowed call returns and keeps the queues sound. -/
theorem SoundNoWaiter.run {tm : TaskManager} (h : tm.SoundNoWaiter) {call : SchedulerCall}
    (ha : call.Allowed tm) : ∃ tm', call.run tm = some tm' ∧ tm'.SoundNoWaiter := by
  obtain ⟨hs, hw⟩ := h
  -- a call that keeps the waiters
  have keep : ∀ {tm' : TaskManager}, tm'.Sound → Keeps tm tm' → tm'.SoundNoWaiter :=
    fun hs' hk => ⟨hs', fun id => hk.finishWaiter ▸ hw id⟩
  -- the operations on ids look the task up first
  have byId : ∀ {op : Nat → Option TaskManager} (id : Nat),
      (id ∈ tm.tasks → ∃ tm', op id = some tm' ∧ tm'.Sound ∧ Keeps tm tm') →
      ∃ tm', (tm.withTaskId id op).map Prod.snd = some tm' ∧ tm'.SoundNoWaiter := by
    intro op id hop
    obtain ⟨err, tm', heq, hs', hk⟩ := hs.withTaskId id hop
    exact ⟨tm', by rw [heq]; rfl, keep hs' hk⟩
  cases call with
  | newTask => exact ⟨_, rfl, hs.newTask, hw⟩
  | switchTask =>
    obtain ⟨tm', heq, hs', hk⟩ := hs.switchTask
    exact ⟨tm', heq, keep hs' hk⟩
  | sleep task =>
    obtain ⟨tm', heq, hs', hk⟩ := hs.sleep ha.2
    exact ⟨tm', heq, keep hs' hk⟩
  | sleepId id => exact byId id fun _ => hs.sleep ha
  | wakeup task =>
    obtain ⟨tm', heq, hs', hk⟩ := hs.wakeup ha
    exact ⟨tm', heq, keep hs' hk⟩
  | wakeupId id => exact byId id fun hid => hs.wakeup hid
  | sendMessage id msg => exact byId id fun hid => hs.taskSendMessage hid msg
  | finish exitCode =>
    obtain ⟨t, -, hcur⟩ := hs.exists_currentTask
    have hidle : t ≠ idleId := by
      rintro rfl
      exact ha hcur
    have hwaits : ∀ id w, tm.finishWaiter id = some w → w ≠ t := by
      intro id w hiw
      rw [hw id] at hiw
      cases hiw
    obtain ⟨tm', heq, hs', -, -, hw'⟩ := hs.finish exitCode hcur hidle hwaits
    refine ⟨tm', heq, hs', fun id => ?_⟩
    rw [hw', Function.update_apply, hw id, ite_self]

theorem SoundNoWaiter.of_reachable {tm : TaskManager} (h : Reachable (· = .init) Step tm) :
    tm.SoundNoWaiter := by
  refine h.invariant ?_ ?_
  · rintro _ rfl
    exact ⟨Sound.init, fun _ => rfl⟩
  · rintro tm tm' hi ⟨call, ha, hrun⟩
    obtain ⟨tm'', heq, hi'⟩ := hi.run ha
    rw [hrun, Option.some_inj] at heq
    exact heq ▸ hi'

/-- All run queues, one after the other. -/
def allRunning (tm : TaskManager) : List Nat := (List.range (kMaxLevel + 1)).flatMap tm.running

theorem mem_allRunning {tm : TaskManager} {t : Nat} :
    t ∈ tm.allRunning ↔ ∃ lv ≤ kMaxLevel, t ∈ tm.running lv := by
  unfold allRunning
  simp only [List.mem_flatMap, List.mem_range, Nat.lt_succ_iff]

/-- A task is in one queue only, and there once. -/
theorem Queued.allRunning_nodup {tm : TaskManager} (h : tm.Queued) : tm.allRunning.Nodup := by
  unfold allRunning
  rw [List.nodup_flatMap]
  refine ⟨fun lv hlv => h.nodup lv (by rw [List.mem_range] at hlv; omega), ?_⟩
  refine List.Nodup.pairwise_of_forall_ne List.nodup_range fun a ha b hb hab => ?_
  rw [List.mem_range, Nat.lt_succ_iff] at ha hb
  intro t hta htb
  exact hab ((h.queued a ha t hta).2.1.symm.trans (h.queued b hb t htb).2.1)

theorem Queued.ready_iff {tm : TaskManager} (h : tm.Queued) {t : Nat} (ht : t ∈ tm.tasks) :
    (tm.task t).readyOrRunning = true ↔ t ∈ tm.allRunning := by
  rw [mem_allRunning]
  constructor
  · exact fun hr => ⟨_, h.level_le t ht, h.ready t ht hr⟩
  · rintro ⟨lv, hlv, hin⟩
    exact (h.queued lv hlv t hin).2.2

end TaskManager

open TaskManager SchedulerCall

/-- **The run queues hold exactly the ready tasks.**  Whatever the calls made since the constructor, a
living task is ready iff it is queued; it is queued once, in the queue of its level; only living tasks
are queued; there is a current task; and the next call returns. -/
theorem runQueues_exact {tm : TaskManager} (h : Reachable (· = .init) Step tm) :
    (∀ t ∈ tm.tasks, (tm.task t).readyOrRunning = true ↔ t ∈ tm.allRunning) ∧
    (∀ t ∈ tm.tasks, (tm.task t).readyOrRunning = true → tm.allRunning.count t = 1 ∧
      (tm.task t).level ≤ kMaxLevel ∧ t ∈ tm.running (tm.task t).level) ∧
    (∀ t ∈ tm.allRunning, t ∈ tm.tasks) ∧
    (tm.currentLevel ≤ kMaxLevel ∧ tm.running tm.currentLevel ≠ [] ∧
      ∃ t ∈ tm.tasks, tm.currentTask = some t) ∧
    ∀ call : SchedulerCall, call.Allowed tm → (call.run tm).isSome := by
  have hi := SoundNoWaiter.of_reachable h
  have hq := hi.1.queued
  have hone : ∀ t ∈ tm.tasks, (tm.task t).readyOrRunning = true → tm.allRunning.count t = 1 :=
    fun t ht hr => List.count_eq_one_of_mem hq.allRunning_nodup ((hq.ready_iff ht).mp hr)
  have hlive : ∀ t ∈ tm.allRunning, t ∈ tm.tasks := by
    intro t hin
    obtain ⟨lv, hlv, hin⟩ := mem_allRunning.mp hin
    exact (hq.queued lv hlv t hin).1
  have hreturns : ∀ call : SchedulerCall, call.Allowed tm → (call.run tm).isSome := by
    intro call ha
    obtain ⟨tm', heq, -⟩ := hi.run ha
    rw [heq]
    rfl
  exact ⟨fun t ht => hq.ready_iff ht,
    fun t ht hr => ⟨hone t ht hr, hq.level_le t ht, hq.ready t ht hr⟩, hlive,
    ⟨hq.current_le, hi.1.selected, hi.1.exists_currentTask⟩, hreturns⟩

/-- A new task is sent a message, and the main task sleeps: the new task runs. -/
theorem runQueues_exact_handover :
    ∃ tm : TaskManager, tm.currentTask = some 3 ∧ tm.allRunning = [2, 3] ∧
      ∀ t ∈ tm.allRunning, t ∈ tm.tasks := by
  have hrun : Reachable (· = .init) Step .init := .start rfl
  have hrun := hrun.next ⟨.newTask, trivial, rfl⟩
  have hrun := hrun.next ⟨.sendMessage 3 .kLayerOpsFinish, trivial, rfl⟩
  have hrun := hrun.next ⟨.sleep 1, by unfold Allowed; decide, rfl⟩
  exact ⟨_, by decide, by decide, (runQueues_exact hrun).2.2.1⟩

end MikanSaos
