import MikanSaos.Task.Effects
import MikanSaos.Task.Scheduling

/-!
# TaskRun — the tasks as they call the task manager

A step is a block that the source runs with interrupts disabled: a call by anybody that names tasks, or
a block of the running task that receives a message, waits for another task or finishes.
-/

open Reasoning

namespace MikanSaos

open TaskManager

/-- The task manager, and which id the `WaitFinish` loop of a task is about.  The other fields are not in
the source: they record what has happened. -/
structure TaskRun where
  tm : TaskManager
  waits : Nat → Option Nat
  /-- Some `WaitFinish` has been called for the id. -/
  waited : Nat → Bool
  /-- The code a task passed to `Finish`. -/
  exitCodes : Nat → Option Int
  /-- The ids and the codes that `WaitFinish` has returned. -/
  returned : List (Nat × Int)
  sent : Nat → List Message
  received : Nat → List Message

namespace TaskRun

def init : TaskRun :=
  ⟨.init, fun _ => none, fun _ => false, fun _ => none, [], fun _ => [], fun _ => []⟩

/-- What has been sent after a call: a message to an id that names no living task is dropped. -/
def sentBy (s : TaskRun) : SchedulerCall → Nat → List Message
  | .sendMessage id msg =>
    if id ∈ s.tm.tasks then Function.update s.sent id (s.sent id ++ [msg]) else s.sent
  | _ => s.sent

end TaskRun

inductive TaskEvent where
  | call (c : SchedulerCall)
  | receive (t : Nat) (msg : Message)
  | receiveSleep (t : Nat)
  | waitFinish (t id : Nat)
  | waitReturn (t id : Nat) (exitCode : Int)
  | waitSleep (t id : Nat)
  | finish (t : Nat) (exitCode : Int)
  deriving DecidableEq

/-- One step.  `call` stands for anybody, interrupt handlers included; the others are blocks of the
running task `t`, and `waitReturn` and `waitSleep` are the two ways a round of `WaitFinish` ends. -/
inductive TaskStep (s : TaskRun) : TaskEvent → TaskRun → Prop
  | call (c : SchedulerCall) (tm : TaskManager) (hfin : ∀ exitCode, c ≠ .finish exitCode)
      (hallowed : c.Allowed s.tm) (hrun : c.run s.tm = some tm) :
      TaskStep s (.call c) { s with tm := tm, sent := s.sentBy c }
  | receive (t : Nat) (msg : Message) (tm : TaskManager) (hcur : s.tm.currentTask = some t)
      (hwaits : s.waits t = none) (hrun : s.tm.taskReceiveMessage t = (some msg, tm)) :
      TaskStep s (.receive t msg)
        { s with tm := tm, received := Function.update s.received t (s.received t ++ [msg]) }
  | receiveSleep (t : Nat) (tm tm' : TaskManager) (hcur : s.tm.currentTask = some t)
      (hidle : t ≠ idleId) (hwaits : s.waits t = none)
      (hrun : s.tm.taskReceiveMessage t = (none, tm)) (hsleep : tm.sleep t = some tm') :
      TaskStep s (.receiveSleep t) { s with tm := tm' }
  | waitFinish (t id : Nat) (hcur : s.tm.currentTask = some t) (hidle : t ≠ idleId)
      (hwaits : s.waits t = none) :
      TaskStep s (.waitFinish t id)
        { s with waits := Function.update s.waits t (some id),
                 waited := Function.update s.waited id true }
  | waitReturn (t id : Nat) (exitCode : Int) (tm : TaskManager)
      (hcur : s.tm.currentTask = some t) (hwaits : s.waits t = some id)
      (hrun : s.tm.waitFinishRound t id = some (some exitCode, tm)) :
      TaskStep s (.waitReturn t id exitCode)
        { s with tm := tm, waits := Function.update s.waits t none,
                 returned := (id, exitCode) :: s.returned }
  | waitSleep (t id : Nat) (tm : TaskManager) (hcur : s.tm.currentTask = some t)
      (hidle : t ≠ idleId) (hwaits : s.waits t = some id)
      (hrun : s.tm.waitFinishRound t id = some (none, tm)) :
      TaskStep s (.waitSleep t id) { s with tm := tm }
  | finish (t : Nat) (exitCode : Int) (tm : TaskManager) (hcur : s.tm.currentTask = some t)
      (hidle : t ≠ idleId) (hwaits : s.waits t = none) (hrun : s.tm.finish exitCode = some tm) :
      TaskStep s (.finish t exitCode)
        { s with tm := tm, exitCodes := Function.update s.exitCodes t (some exitCode) }

/-! ## What the calls leave in the task objects -/

namespace TaskManager

variable {tm tm' : TaskManager} {t u id : Nat}

/-- The task objects with the flag of `t` set to `ready`. -/
def withFlag (tm : TaskManager) (t : Nat) (ready : Bool) : Nat → Task :=
  Function.update tm.task t { tm.task t with readyOrRunning := ready }

/-- The task objects after a call that is no `Finish`. -/
def tasksAfter (tm : TaskManager) : SchedulerCall → Nat → Task
  | .newTask => Function.update tm.task (tm.lastId + 1) {}
  | .sleep t => tm.withFlag t false
  | .sleepId id => if id ∈ tm.tasks then tm.withFlag id false else tm.task
  | .wakeup t => tm.withFlag t true
  | .wakeupId id => if id ∈ tm.tasks then tm.withFlag id true else tm.task
  | .sendMessage id msg =>
    if id ∈ tm.tasks then
      Function.update tm.task id
        { tm.task id with msgs := (tm.task id).msgs ++ [msg], readyOrRunning := true }
    else tm.task
  | .switchTask | .finish _ => tm.task

/-- An operation on an id runs on the living task of that id, or does nothing. -/
theorem withTaskId_cases {op : Nat → Option TaskManager}
    (h : (tm.withTaskId id op).map Prod.snd = some tm') :
    (id ∈ tm.tasks ∧ op id = some tm') ∨ (id ∉ tm.tasks ∧ tm' = tm) := by
  unfold withTaskId at h
  cases hfind : tm.tasks.find? (· == id) with
  | none =>
    rw [hfind] at h
    cases h
    refine .inr ⟨fun hin => ?_, rfl⟩
    have hno := List.find?_eq_none.mp hfind id hin
    simp at hno
  | some t =>
    have hid : t = id := by simpa using List.find?_some hfind
    subst hid
    rw [hfind] at h
    obtain ⟨tm₁, hop, heq⟩ : ∃ tm₁, op t = some tm₁ ∧ tm₁ = tm' := by
      cases hop : op t with
      | none => simp [hop] at h
      | some tm₁ => exact ⟨tm₁, rfl, by simpa [hop] using h⟩
    exact .inl ⟨List.mem_of_find?_eq_some hfind, heq ▸ hop⟩

theorem run_task {c : SchedulerCall} (hfin : ∀ exitCode, c ≠ .finish exitCode)
    (hrun : c.run tm = some tm') : tm'.task = tm.tasksAfter c := by
  cases c with
  | newTask =>
    cases hrun
    rfl
  | switchTask => exact switchTask_task hrun
  | sleep task => exact sleep_task hrun
  | wakeup task => exact wakeup_task hrun
  | finish exitCode => exact absurd rfl (hfin exitCode)
  | sleepId id =>
    rw [tasksAfter]
    rcases withTaskId_cases hrun with ⟨hid, hop⟩ | ⟨hid, rfl⟩
    · rw [if_pos hid]
      exact sleep_task hop
    · rw [if_neg hid]
  | wakeupId id =>
    rw [tasksAfter]
    rcases withTaskId_cases hrun with ⟨hid, hop⟩ | ⟨hid, rfl⟩
    · rw [if_pos hid]
      exact wakeup_task hop
    · rw [if_neg hid]
  | sendMessage id msg =>
    rw [tasksAfter]
    rcases withTaskId_cases hrun with ⟨hid, hop⟩ | ⟨hid, rfl⟩
    · rw [if_pos hid]
      exact taskSendMessage_task hop
    · rw [if_neg hid]

/-- The tasks that live after a call: those before it, and a new one. -/
def livingAfter (tm : TaskManager) : SchedulerCall → List Nat
  | .newTask => tm.tasks ++ [tm.lastId + 1]
  | _ => tm.tasks

theorem run_ids {c : SchedulerCall} (hfin : ∀ exitCode, c ≠ .finish exitCode)
    (hrun : c.run tm = some tm') :
    tm'.lastId = (if c = .newTask then tm.lastId + 1 else tm.lastId) ∧ tm'.tasks = tm.livingAfter c := by
  have byId : ∀ {op : Nat → Option TaskManager} (id : Nat),
      (op id = some tm' → tm'.lastId = tm.lastId ∧ tm'.tasks = tm.tasks) →
      (tm.withTaskId id op).map Prod.snd = some tm' → tm'.lastId = tm.lastId ∧ tm'.tasks = tm.tasks := by
    intro op id hop h
    rcases withTaskId_cases h with ⟨-, heq⟩ | ⟨-, rfl⟩
    · exact hop heq
    · exact ⟨rfl, rfl⟩
  cases c with
  | newTask =>
    cases hrun
    exact ⟨rfl, rfl⟩
  | switchTask => exact switchTask_ids hrun
  | sleep task => exact sleep_ids hrun
  | sleepId id => exact byId id sleep_ids hrun
  | wakeup task => exact wakeup_ids hrun
  | wakeupId id => exact byId id wakeup_ids hrun
  | sendMessage id msg => exact byId id taskSendMessage_ids hrun
  | finish exitCode => exact absurd rfl (hfin exitCode)

theorem withFlag_self (tm : TaskManager) (t : Nat) (ready : Bool) :
    (tm.withFlag t ready t).readyOrRunning = ready := by
  unfold withFlag
  rw [Function.update_self]

theorem withFlag_of_ne (tm : TaskManager) (ready : Bool) (h : u ≠ t) :
    tm.withFlag t ready u = tm.task u := Function.update_of_ne h ..

theorem withFlag_ready (h : (tm.task u).readyOrRunning = true) :
    (tm.withFlag t true u).readyOrRunning = true := by
  by_cases hu : u = t
  · rw [hu, withFlag_self]
  · rw [withFlag_of_ne tm true hu]
    exact h

/-- Only `Sleep` of a task takes its flag away. -/
theorem tasksAfter_ready {c : SchedulerCall} (hnew : u ≤ tm.lastId) (hsleep : c ≠ .sleep u)
    (hsleepId : c ≠ .sleepId u) (h : (tm.task u).readyOrRunning = true) :
    (tm.tasksAfter c u).readyOrRunning = true := by
  unfold tasksAfter
  split
  · rw [Function.update_of_ne (by omega)]
    exact h
  · rename_i t
    rw [withFlag_of_ne tm false (by rintro rfl; exact hsleep rfl)]
    exact h
  · rename_i id
    split
    · rw [withFlag_of_ne tm false (by rintro rfl; exact hsleepId rfl)]
      exact h
    · exact h
  · exact withFlag_ready h
  · split
    · exact withFlag_ready h
    · exact h
  · rename_i id msg
    split
    · by_cases hu : u = id
      · rw [hu, Function.update_self]
      · rw [Function.update_of_ne hu]
        exact h
    · exact h
  · exact h
  · exact h

/-! ## The blocks of the running task -/

theorem taskReceiveMessage_some {msg : Message} (h : tm.taskReceiveMessage t = (some msg, tm')) :
    ∃ msgs, (tm.task t).msgs = msg :: msgs ∧ tm' = tm.setMsgs t msgs := by
  unfold taskReceiveMessage at h
  split at h
  · cases h
  · rename_i m msgs hmsgs
    cases h
    exact ⟨msgs, hmsgs, rfl⟩

theorem taskReceiveMessage_none (h : tm.taskReceiveMessage t = (none, tm')) :
    (tm.task t).msgs = [] ∧ tm' = tm := by
  unfold taskReceiveMessage at h
  split at h
  · rename_i hmsgs
    cases h
    exact ⟨hmsgs, rfl⟩
  · cases h

theorem waitFinishRound_some {exitCode : Int}
    (h : tm.waitFinishRound t id = some (some exitCode, tm')) :
    tm.finishTasks id = some exitCode ∧
      tm' = { tm with finishTasks := Function.update tm.finishTasks id none } := by
  unfold waitFinishRound at h
  split at h
  · rename_i code hcode
    cases h
    exact ⟨hcode, rfl⟩
  · obtain ⟨tm'', -, heq⟩ := Option.map_eq_some_iff.mp h
    cases heq

theorem waitFinishRound_none (h : tm.waitFinishRound t id = some (none, tm')) :
    tm.finishTasks id = none ∧ (tm.setWaiter id (some t)).sleep t = some tm' := by
  unfold waitFinishRound at h
  split at h
  · cases h
  · rename_i hcode
    obtain ⟨tm'', hsleep, heq⟩ := Option.map_eq_some_iff.mp h
    cases heq
    exact ⟨hcode, hsleep⟩

theorem Sound.setFinishTasks (h : tm.Sound) (codes : Nat → Option Int) :
    Sound { tm with finishTasks := codes } :=
  ⟨h.queued.congr rfl rfl (fun _ _ => rfl) (fun _ _ => rfl) (fun _ _ => .refl _)
    h.queued.current_le h.queued.waiter, h.selected⟩

/-- The calls that are no `Finish` leave the finished tasks and the waiters alone. -/
theorem Sound.run_keeps (h : tm.Sound) {c : SchedulerCall} (hfin : ∀ exitCode, c ≠ .finish exitCode)
    (ha : c.Allowed tm) (hrun : c.run tm = some tm') :
    tm'.Sound ∧ tm'.finishTasks = tm.finishTasks ∧ tm'.finishWaiter = tm.finishWaiter ∧
      tm'.tasks = tm.livingAfter c := by
  -- an operation on living tasks gives a sound state and keeps who lives
  have keep : ∀ {r : Option TaskManager}, (∃ tm₁, r = some tm₁ ∧ tm₁.Sound ∧ Keeps tm tm₁) →
      r = some tm' → tm'.Sound ∧ tm'.finishTasks = tm.finishTasks ∧
        tm'.finishWaiter = tm.finishWaiter ∧ tm'.tasks = tm.tasks := by
    rintro r ⟨tm₁, rfl, hs, hk⟩ heq
    obtain rfl := Option.some.inj heq
    exact ⟨hs, hk.finishTasks, hk.finishWaiter, hk.tasks⟩
  have byId : ∀ {op : Nat → Option TaskManager} (id : Nat),
      (id ∈ tm.tasks → ∃ tm₁, op id = some tm₁ ∧ tm₁.Sound ∧ Keeps tm tm₁) →
      ∃ tm₁, (tm.withTaskId id op).map Prod.snd = some tm₁ ∧ tm₁.Sound ∧ Keeps tm tm₁ := by
    intro op id hop
    obtain ⟨err, tm₁, heq, hs, hk⟩ := h.withTaskId id hop
    exact ⟨tm₁, by rw [heq]; rfl, hs, hk⟩
  cases c with
  | newTask =>
    cases hrun
    exact ⟨h.newTask, rfl, rfl, rfl⟩
  | switchTask => exact keep h.switchTask hrun
  | sleep task => exact keep (h.sleep ha.2) hrun
  | sleepId id => exact keep (byId id fun _ => h.sleep ha) hrun
  | wakeup task => exact keep (h.wakeup ha) hrun
  | wakeupId id => exact keep (byId id fun hid => h.wakeup hid) hrun
  | sendMessage id msg => exact keep (byId id fun hid => h.taskSendMessage hid msg) hrun
  | finish exitCode => exact absurd rfl (hfin exitCode)

end TaskManager

/-! ## The scheduler stays sound -/

namespace TaskRun

/-- The task manager is sound, and a task that is registered as a waiter is in the `WaitFinish` loop it
has registered in. -/
structure Sound (s : TaskRun) : Prop where
  tm : s.tm.Sound
  waiter : ∀ id w, s.tm.finishWaiter id = some w →
    s.waits w = some id ∧ s.tm.finishTasks id = none

variable {s s' : TaskRun} {event : TaskEvent}

theorem Sound.current_mem (h : s.Sound) {t : Nat} (hcur : s.tm.currentTask = some t) :
    t ∈ s.tm.tasks := by
  obtain ⟨_, -, -, -, hlive⟩ := h.tm.current_queue hcur
  exact hlive

theorem Sound.init : TaskRun.init.Sound :=
  ⟨TaskManager.Sound.init, fun id w hw => by cases hw⟩

/-- What `Finish` of a task outside `WaitFinish` does to the tasks and to the waiters. -/
theorem Sound.finish_spec (h : s.Sound) {t : Nat} {exitCode : Int} {tm : TaskManager}
    (hcur : s.tm.currentTask = some t) (hidle : t ≠ idleId) (hwaits : s.waits t = none)
    (hrun : s.tm.finish exitCode = some tm) :
    tm.Sound ∧ tm.tasks = s.tm.tasks.erase t ∧
      tm.finishTasks = Function.update s.tm.finishTasks t (some exitCode) ∧
      tm.finishWaiter = Function.update s.tm.finishWaiter t none := by
  have hother : ∀ id w, s.tm.finishWaiter id = some w → w ≠ t := by
    rintro id w hw rfl
    rw [(h.waiter id w hw).1] at hwaits
    cases hwaits
  obtain ⟨tm', heq, hspec⟩ := h.tm.finish exitCode hcur hidle hother
  obtain rfl : tm' = tm := Option.some.inj (heq.symm.trans hrun)
  exact hspec

theorem Sound.step (h : s.Sound) (hstep : TaskStep s event s') : s'.Sound := by
  cases hstep with
  | call c tm hfin hallowed hrun =>
    obtain ⟨hs, hcodes, hwaiters, -⟩ := h.tm.run_keeps hfin hallowed hrun
    refine ⟨hs, fun id w hw => ?_⟩
    show s.waits w = some id ∧ tm.finishTasks id = none
    rw [hcodes]
    exact h.waiter id w (hwaiters ▸ hw)
  | receive t msg tm hcur hwaits hrun =>
    obtain ⟨msgs, -, rfl⟩ := taskReceiveMessage_some hrun
    exact ⟨h.tm.setMsgs t msgs, h.waiter⟩
  | receiveSleep t tm tm' hcur hidle hwaits hrun hsleep =>
    obtain ⟨-, rfl⟩ := taskReceiveMessage_none hrun
    obtain ⟨tm₁, heq, hs, hk⟩ := h.tm.sleep hidle
    obtain rfl : tm₁ = tm' := Option.some.inj (heq.symm.trans hsleep)
    refine ⟨hs, fun id w hw => ?_⟩
    show s.waits w = some id ∧ tm₁.finishTasks id = none
    rw [hk.finishTasks]
    exact h.waiter id w (hk.finishWaiter ▸ hw)
  | waitFinish t id hcur hidle hwaits =>
    refine ⟨h.tm, fun id' w hw => ?_⟩
    obtain ⟨hwait, hnone⟩ := h.waiter id' w hw
    have hne : w ≠ t := by
      rintro rfl
      rw [hwait] at hwaits
      cases hwaits
    exact ⟨(Function.update_of_ne hne ..).trans hwait, hnone⟩
  | waitReturn t id exitCode tm hcur hwaits hrun =>
    obtain ⟨hcode, rfl⟩ := waitFinishRound_some hrun
    refine ⟨h.tm.setFinishTasks _, fun id' w hw => ?_⟩
    obtain ⟨hwait, hnone⟩ := h.waiter id' w hw
    -- the caller is not registered: the id it waits for has finished
    have hne : w ≠ t := by
      rintro rfl
      rw [hwaits] at hwait
      cases hwait
      rw [hcode] at hnone
      cases hnone
    refine ⟨(Function.update_of_ne hne ..).trans hwait, ?_⟩
    show Function.update s.tm.finishTasks id none id' = none
    by_cases hid : id' = id
    · rw [hid, Function.update_self]
    · rw [Function.update_of_ne hid]
      exact hnone
  | waitSleep t id tm hcur hidle hwaits hrun =>
    obtain ⟨hcode, hsleep⟩ := waitFinishRound_none hrun
    obtain ⟨tm₁, heq, hs, hk⟩ := (h.tm.setWaiter id (h.current_mem hcur)).sleep hidle
    obtain rfl : tm₁ = tm := Option.some.inj (heq.symm.trans hsleep)
    refine ⟨hs, fun id' w hw => ?_⟩
    show s.waits w = some id' ∧ tm₁.finishTasks id' = none
    rw [hk.finishTasks]
    rw [hk.finishWaiter] at hw
    by_cases hid : id' = id
    · subst hid
      rw [setWaiter_self] at hw
      cases hw
      exact ⟨hwaits, hcode⟩
    · rw [setWaiter_of_ne _ _ hid] at hw
      exact h.waiter id' w hw
  | finish t exitCode tm hcur hidle hwaits hrun =>
    obtain ⟨hs, -, hcodes, hwaiters⟩ := h.finish_spec hcur hidle hwaits hrun
    refine ⟨hs, fun id w hw => ?_⟩
    show s.waits w = some id ∧ tm.finishTasks id = none
    rw [hwaiters] at hw
    by_cases hid : id = t
    · rw [hid, Function.update_self] at hw
      cases hw
    · rw [Function.update_of_ne hid] at hw
      rw [hcodes, Function.update_of_ne hid]
      exact h.waiter id w hw

theorem Sound.of_reachable {guard : TaskRun → TaskEvent → Prop}
    (h : Reachable (· = .init) (GuardedStep TaskStep guard) s) : s.Sound := by
  refine h.invariant ?_ ?_
  · rintro _ rfl
    exact Sound.init
  · rintro s s' hi ⟨event, -, hstep⟩
    exact hi.step hstep

end TaskRun

end MikanSaos
