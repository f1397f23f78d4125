import MikanSaos.Task.TaskRun

/-!
# Overtaking — a ready task is never passed in its queue

A task leaves a queue by a filter and enters it at the end, so that a step moves the others forward at most;
only `SwitchTask` moves the front to the back, and that moves every other task on by one.
-/

open Reasoning

namespace MikanSaos

open TaskManager

/-! ## Positions in a list -/

/-- Without `u` and with new elements at the end, `t` stands no further back. -/
theorem filter_index {q : List Nat} {t u k : Nat} (h : q[k]? = some t) (hu : u ≠ t)
    (woken : List Nat) : ∃ k' ≤ k, (q.filter (· ≠ u) ++ woken)[k']? = some t := by
  obtain ⟨hlt, hget⟩ := List.getElem?_eq_some_iff.mp h
  -- `q` is what stands before `t`, then `t`, then the rest
  have hsplit : q = q.take k ++ t :: q.drop (k + 1) := by
    rw [← hget, List.getElem_cons_drop, List.take_append_drop]
  have hkeep : (t :: q.drop (k + 1)).filter (· ≠ u) = t :: (q.drop (k + 1)).filter (· ≠ u) :=
    List.filter_cons_of_pos (by simpa using hu.symm)
  refine ⟨((q.take k).filter (· ≠ u)).length, ?_, ?_⟩
  · calc ((q.take k).filter (· ≠ u)).length ≤ (q.take k).length := List.length_filter_le ..
      _ ≤ k := List.length_take_le k q
  · rw [hsplit, List.filter_append, hkeep, List.append_assoc, ← hsplit]
    rw [List.getElem?_append_right (Nat.le_refl _), Nat.sub_self]
    rfl

theorem append_index {q : List Nat} {t k : Nat} (h : q[k]? = some t) (woken : List Nat) :
    (q ++ woken)[k]? = some t := by
  obtain ⟨hlt, -⟩ := List.getElem?_eq_some_iff.mp h
  rw [List.getElem?_append_left hlt]
  exact h

/-- A rotation moves everything but the front on by one. -/
theorem rotate_index {rest : List Nat} {front t k : Nat} (h : (front :: rest)[k]? = some t)
    (hk : 1 ≤ k) : (rest ++ [front])[k - 1]? = some t := by
  obtain ⟨j, rfl⟩ : ∃ j, k = j + 1 := ⟨k - 1, by omega⟩
  rw [List.getElem?_cons_succ] at h
  exact append_index h [front]

/-! ## What a step does to a queue -/

/-- The task that a step takes out of its queue. -/
def TaskEvent.leaver : TaskEvent → Option Nat
  | .call (.sleep t) | .call (.sleepId t) => some t
  | .receiveSleep t | .waitSleep t _ | .finish t _ => some t
  | _ => none

/-- `t` is at index `k` of the run queue of its level. -/
def TaskManager.QueuedAt (tm : TaskManager) (t k : Nat) : Prop :=
  (tm.running (tm.task t).level)[k]? = some t

namespace TaskRun

variable {s s' s'' : TaskRun} {event : TaskEvent} {t u k n lv : Nat}

theorem setMsgs_level (tm : TaskManager) (t u : Nat) (msgs : List Message) :
    ((tm.setMsgs t msgs).task u).level = (tm.task u).level := by
  unfold setMsgs
  by_cases hu : u = t
  · rw [hu, setTask_self]
  · rw [setTask_of_ne _ _ _ _ hu]

theorem withFlag_level (tm : TaskManager) (t u : Nat) (ready : Bool) :
    (tm.withFlag t ready u).level = (tm.task u).level := by
  by_cases hu : u = t
  · rw [hu, withFlag, Function.update_self]
  · rw [withFlag_of_ne tm ready hu]

theorem tasksAfter_level {tm : TaskManager} (c : SchedulerCall) (hu : u ≤ tm.lastId) :
    (tm.tasksAfter c u).level = (tm.task u).level := by
  unfold tasksAfter
  split
  · rw [Function.update_of_ne (by omega)]
  · exact withFlag_level tm _ u false
  · split
    · exact withFlag_level tm _ u false
    · rfl
  · exact withFlag_level tm _ u true
  · split
    · exact withFlag_level tm _ u true
    · rfl
  · rename_i id msg
    split
    · by_cases hid : u = id
      · rw [hid, Function.update_self]
      · rw [Function.update_of_ne hid]
    · rfl
  · rfl
  · rfl

/-- Tasks keep their level. -/
theorem step_level (hs : s.Sound) (hstep : TaskStep s event s') (hu : u ∈ s.tm.tasks) :
    (s'.tm.task u).level = (s.tm.task u).level := by
  cases hstep with
  | call c tm hfin hallowed hrun =>
    show (tm.task u).level = _
    rw [run_task hfin hrun]
    exact tasksAfter_level c (hs.tm.queued.tasks_le u hu)
  | receive t msg tm hcur hwaits hrun =>
    obtain ⟨msgs, -, rfl⟩ := taskReceiveMessage_some hrun
    exact setMsgs_level s.tm t u msgs
  | receiveSleep t tm tm' hcur hidle hwaits hrun hsleep =>
    obtain ⟨-, rfl⟩ := taskReceiveMessage_none hrun
    show (tm'.task u).level = _
    rw [sleep_task hsleep]
    exact withFlag_level s.tm t u false
  | waitFinish t id hcur hidle hwaits => rfl
  | waitReturn t id exitCode tm hcur hwaits hrun =>
    obtain ⟨-, rfl⟩ := waitFinishRound_some hrun
    rfl
  | waitSleep t id tm hcur hidle hwaits hrun =>
    obtain ⟨-, hsleep⟩ := waitFinishRound_none hrun
    show (tm.task u).level = _
    rw [sleep_task hsleep]
    exact withFlag_level s.tm t u false
  | finish t exitCode tm hcur hidle hwaits hrun =>
    show (tm.task u).level = _
    rw [finish_task hcur hrun]
    cases s.tm.finishWaiter t with
    | none => rfl
    | some w => exact withFlag_level s.tm w u true

/-- The queue without the task that the event takes out. -/
def TaskEvent.remaining (event : TaskEvent) (q : List Nat) : List Nat :=
  match event.leaver with
  | some u => q.filter (· ≠ u)
  | none => q

/-- Apart from `SwitchTask`, a step takes one task out of its queue, and puts some at the end. -/
theorem step_running (hs : s.Sound) (hstep : TaskStep s event s') (hlv : lv ≤ kMaxLevel)
    (hswitch : event ≠ .call .switchTask) :
    ∃ woken, s'.tm.running lv = TaskEvent.remaining event (s.tm.running lv) ++ woken := by
  have same : s.tm.running lv = s.tm.running lv ++ [] := (List.append_nil _).symm
  have slept : ∀ {tm tm' : TaskManager} {t : Nat}, tm.Sound → tm.running = s.tm.running →
      tm.sleep t = some tm' →
      ∃ woken, tm'.running lv = (s.tm.running lv).filter (· ≠ t) ++ woken := by
    intro tm tm' t hsound hq hsleep
    exact ⟨[], by rw [sleep_running hsound hsleep hlv, hq, List.append_nil]⟩
  cases hstep with
  | call c tm hfin hallowed hrun =>
    show ∃ woken, tm.running lv = TaskEvent.remaining (.call c) (s.tm.running lv) ++ woken
    cases c with
    | newTask =>
      cases hrun
      exact ⟨[], same⟩
    | switchTask => exact absurd rfl hswitch
    | sleep u => exact slept hs.tm rfl hrun
    | wakeup u => exact ⟨_, wakeup_running hrun lv⟩
    | finish exitCode => exact absurd rfl (hfin exitCode)
    | sleepId u =>
      rcases withTaskId_cases hrun with ⟨-, hop⟩ | ⟨hnot, rfl⟩
      · exact slept hs.tm rfl hop
      · -- an unknown id is in no queue
        refine ⟨[], ?_⟩
        have hall : (s.tm.running lv).filter (· ≠ u) = s.tm.running lv := by
          apply List.filter_eq_self.mpr
          intro w hw
          rw [decide_eq_true_eq]
          rintro rfl
          exact hnot (hs.tm.queued.queued lv hlv w hw).1
        show s.tm.running lv = (s.tm.running lv).filter (· ≠ u) ++ []
        rw [hall, List.append_nil]
    | wakeupId u =>
      rcases withTaskId_cases hrun with ⟨-, hop⟩ | ⟨-, rfl⟩
      · exact ⟨_, wakeup_running hop lv⟩
      · exact ⟨[], same⟩
    | sendMessage u msg =>
      rcases withTaskId_cases hrun with ⟨-, hop⟩ | ⟨-, rfl⟩
      · exact ⟨_, wakeup_running hop lv⟩
      · exact ⟨[], same⟩
  | receive t msg tm hcur hwaits hrun =>
    obtain ⟨msgs, -, rfl⟩ := taskReceiveMessage_some hrun
    exact ⟨[], same⟩
  | receiveSleep t tm tm' hcur hidle hwaits hrun hsleep =>
    obtain ⟨-, rfl⟩ := taskReceiveMessage_none hrun
    exact slept hs.tm rfl hsleep
  | waitFinish t id hcur hidle hwaits => exact ⟨[], same⟩
  | waitReturn t id exitCode tm hcur hwaits hrun =>
    obtain ⟨-, rfl⟩ := waitFinishRound_some hrun
    exact ⟨[], same⟩
  | waitSleep t id tm hcur hidle hwaits hrun =>
    obtain ⟨-, hsleep⟩ := waitFinishRound_none hrun
    exact slept (hs.tm.setWaiter id (hs.current_mem hcur)) rfl hsleep
  | finish t exitCode tm hcur hidle hwaits hrun => exact finish_running hs.tm hcur hrun hlv

/-! ## One task in its queue -/

/-- A task behind the front of its queue is not running. -/
theorem QueuedAt.not_current (hs : s.Sound) (hat : s.tm.QueuedAt t k) (hk : 1 ≤ k) :
    s.tm.currentTask ≠ some t := by
  intro hcur
  obtain ⟨rest, hfront, -, hl, -⟩ := hs.tm.current_queue hcur
  have hnodup := hs.tm.queued.nodup _ hs.tm.queued.current_le
  unfold QueuedAt at hat
  obtain ⟨j, rfl⟩ : ∃ j, k = j + 1 := ⟨k - 1, by omega⟩
  rw [hl, hfront, List.getElem?_cons_succ] at hat
  rw [hfront] at hnodup
  exact (List.nodup_cons.mp hnodup).1 (List.mem_of_getElem? hat)

theorem switchTask_step (hstep : TaskStep s (.call .switchTask) s') :
    s.tm.switchTask = some s'.tm := by
  cases hstep with
  | call c tm hfin hallowed hrun => exact hrun

theorem switchTask_queue (hs : s.Sound) (hlive : t ∈ s.tm.tasks)
    (hstep : TaskStep s (.call .switchTask) s') :
    ∃ front rest, s.tm.running s.tm.currentLevel = front :: rest ∧
      s'.tm.running (s'.tm.task t).level =
        if s.tm.currentLevel = (s.tm.task t).level then rest ++ [front]
        else s.tm.running (s.tm.task t).level := by
  obtain ⟨front, rest, hfront⟩ := hs.tm.selected.exists_current
  refine ⟨front, rest, hfront, ?_⟩
  rw [step_level hs hstep hlive, switchTask_running hfront (switchTask_step hstep)]
  by_cases hl : s.tm.currentLevel = (s.tm.task t).level
  · rw [if_pos hl, ← hl, Function.update_self]
  · rw [if_neg hl, Function.update_of_ne (Ne.symm hl)]

/-- A `SwitchTask` at the level of a task moves it on by one. -/
theorem QueuedAt.switchTask (hs : s.Sound) (hlive : t ∈ s.tm.tasks) (hat : s.tm.QueuedAt t k)
    (hk : 1 ≤ k) (hstep : TaskStep s (.call .switchTask) s')
    (hlevel : s.tm.currentLevel = (s.tm.task t).level) : s'.tm.QueuedAt t (k - 1) := by
  obtain ⟨front, rest, hfront, hq⟩ := switchTask_queue hs hlive hstep
  unfold QueuedAt at hat ⊢
  rw [← hlevel, hfront] at hat
  rw [hq, if_pos hlevel]
  exact rotate_index hat hk

theorem QueuedAt.switchTask_other (hs : s.Sound) (hlive : t ∈ s.tm.tasks) (hat : s.tm.QueuedAt t k)
    (hstep : TaskStep s (.call .switchTask) s')
    (hlevel : s.tm.currentLevel ≠ (s.tm.task t).level) : s'.tm.QueuedAt t k := by
  obtain ⟨front, rest, -, hq⟩ := switchTask_queue hs hlive hstep
  unfold QueuedAt
  rw [hq, if_neg hlevel]
  exact hat

/-- The running task that a step puts to sleep or finishes is not `t`. -/
theorem QueuedAt.leaver_ne (hs : s.Sound) (hat : s.tm.QueuedAt t k) (hk : 1 ≤ k)
    (hstep : TaskStep s event s') (hsleep : event ≠ .call (.sleep t))
    (hsleepId : event ≠ .call (.sleepId t)) : event.leaver ≠ some t := by
  have hcurrent := not_current hs hat hk
  cases hstep with
  | call c tm hfin hallowed hrun =>
    cases c with
    | sleep u =>
      rintro heq
      cases heq
      exact hsleep rfl
    | sleepId u =>
      rintro heq
      cases heq
      exact hsleepId rfl
    | _ => exact nofun
  | receive u msg tm hcur hwaits hrun => exact nofun
  | waitFinish u id hcur hidle hwaits => exact nofun
  | waitReturn u id exitCode tm hcur hwaits hrun => exact nofun
  | receiveSleep u tm tm' hcur hidle hwaits hrun hsleep =>
    rintro heq
    cases heq
    exact hcurrent hcur
  | waitSleep u id tm hcur hidle hwaits hrun =>
    rintro heq
    cases heq
    exact hcurrent hcur
  | finish u exitCode tm hcur hidle hwaits hrun =>
    rintro heq
    cases heq
    exact hcurrent hcur

theorem QueuedAt.step (hs : s.Sound) (hlive : t ∈ s.tm.tasks) (hat : s.tm.QueuedAt t k)
    (hk : 1 ≤ k) (hstep : TaskStep s event s') (hsleep : event ≠ .call (.sleep t))
    (hsleepId : event ≠ .call (.sleepId t)) : ∃ k' ≤ k, s'.tm.QueuedAt t k' := by
  by_cases hswitch : event = .call .switchTask
  · subst hswitch
    by_cases hlevel : s.tm.currentLevel = (s.tm.task t).level
    · exact ⟨k - 1, Nat.sub_le k 1, switchTask hs hlive hat hk hstep hlevel⟩
    · exact ⟨k, Nat.le_refl k, switchTask_other hs hlive hat hstep hlevel⟩
  · obtain ⟨woken, hq⟩ := step_running hs hstep (hs.tm.queued.level_le t hlive) hswitch
    have hne := leaver_ne hs hat hk hstep hsleep hsleepId
    unfold QueuedAt at hat ⊢
    rw [step_level hs hstep hlive, hq]
    unfold TaskEvent.remaining
    split
    · rename_i u hu
      apply filter_index hat _ woken
      rintro rfl
      exact hne hu
    · exact ⟨k, Nat.le_refl k, append_index hat woken⟩

/-! ## Runs -/

/-- No task of the level of `t` is put to sleep or finishes. -/
def Quiet (t : Nat) (s : TaskRun) (event : TaskEvent) : Prop :=
  ∀ u, event.leaver = some u → (s.tm.task u).level ≠ (s.tm.task t).level

/-- The steps from `s` to `s'` are quiet, and `n` of them are a `SwitchTask` at the level of `t`. -/
inductive QuietRun (t : Nat) (s : TaskRun) : Nat → TaskRun → Prop
  | start : QuietRun t s 0 s
  | switch {n : Nat} {s' s'' : TaskRun} (hrun : QuietRun t s n s')
      (hstep : TaskStep s' (.call .switchTask) s'')
      (hlevel : s'.tm.currentLevel = (s'.tm.task t).level) : QuietRun t s (n + 1) s''
  | other {n : Nat} {s' s'' : TaskRun} {event : TaskEvent} (hrun : QuietRun t s n s')
      (hstep : TaskStep s' event s'') (hquiet : Quiet t s' event)
      (hother : event = .call .switchTask → s'.tm.currentLevel ≠ (s'.tm.task t).level) :
      QuietRun t s n s''

theorem QueuedAt.quiet (hs : s.Sound) (hlive : t ∈ s.tm.tasks) (hat : s.tm.QueuedAt t k)
    (hstep : TaskStep s event s') (hquiet : Quiet t s event)
    (hother : event = .call .switchTask → s.tm.currentLevel ≠ (s.tm.task t).level) :
    s'.tm.QueuedAt t k := by
  by_cases hswitch : event = .call .switchTask
  · subst hswitch
    exact switchTask_other hs hlive hat hstep (hother rfl)
  · have hle := hs.tm.queued.level_le t hlive
    obtain ⟨woken, hq⟩ := step_running hs hstep hle hswitch
    unfold QueuedAt at hat ⊢
    rw [step_level hs hstep hlive, hq]
    apply append_index
    unfold TaskEvent.remaining
    split
    · -- the leaving task is not in this queue
      rename_i u hu
      rw [hs.tm.queued.filter_eq_self hle (.inr (hquiet u hu))]
      exact hat
    · exact hat

/-- A quiet step does not take `t` away. -/
theorem Quiet.living (hs : s.Sound) (hlive : t ∈ s.tm.tasks) (hstep : TaskStep s event s')
    (hquiet : Quiet t s event) : t ∈ s'.tm.tasks := by
  cases hstep with
  | call c tm hfin hallowed hrun =>
    obtain ⟨-, -, -, htasks⟩ := hs.tm.run_keeps hfin hallowed hrun
    show t ∈ tm.tasks
    rw [htasks]
    unfold livingAfter
    split
    · exact List.mem_append_left _ hlive
    · exact hlive
  | receive u msg tm hcur hwaits hrun =>
    obtain ⟨msgs, -, rfl⟩ := taskReceiveMessage_some hrun
    exact hlive
  | receiveSleep u tm tm' hcur hidle hwaits hrun hsleep =>
    obtain ⟨-, rfl⟩ := taskReceiveMessage_none hrun
    obtain ⟨tm₁, heq, -, hk⟩ := hs.tm.sleep hidle
    obtain rfl : tm₁ = tm' := Option.some.inj (heq.symm.trans hsleep)
    exact hk.tasks ▸ hlive
  | waitFinish u id hcur hidle hwaits => exact hlive
  | waitReturn u id exitCode tm hcur hwaits hrun =>
    obtain ⟨-, rfl⟩ := waitFinishRound_some hrun
    exact hlive
  | waitSleep u id tm hcur hidle hwaits hrun =>
    obtain ⟨-, hsleep⟩ := waitFinishRound_none hrun
    obtain ⟨tm₁, heq, -, hk⟩ := (hs.tm.setWaiter id (hs.current_mem hcur)).sleep hidle
    obtain rfl : tm₁ = tm := Option.some.inj (heq.symm.trans hsleep)
    exact hk.tasks ▸ hlive
  | finish u exitCode tm hcur hidle hwaits hrun =>
    obtain ⟨-, htasks, -⟩ := hs.finish_spec hcur hidle hwaits hrun
    have hne : t ≠ u := by
      rintro rfl
      exact hquiet t rfl rfl
    show t ∈ tm.tasks
    rw [htasks]
    exact hs.tm.queued.tasks_nodup.mem_erase_iff.mpr ⟨hne, hlive⟩

/-- Along a quiet run a task moves on by one with each `SwitchTask` at its level. -/
theorem QuietRun.queuedAt (h : QuietRun t s n s') (hs : s.Sound) (hlive : t ∈ s.tm.tasks)
    (hat : s.tm.QueuedAt t k) : s'.Sound ∧ t ∈ s'.tm.tasks ∧ (n ≤ k → s'.tm.QueuedAt t (k - n)) := by
  induction h with
  | start => exact ⟨hs, hlive, fun _ => hat⟩
  | @switch n s' s'' hrun hstep hlevel ih =>
    obtain ⟨hs', hlive', hat'⟩ := ih
    have hquiet : Quiet t s' (.call .switchTask) := nofun
    refine ⟨hs'.step hstep, hquiet.living hs' hlive' hstep, fun hn => ?_⟩
    have hnext := QueuedAt.switchTask hs' hlive' (hat' (by omega)) (by omega) hstep hlevel
    rwa [show k - n - 1 = k - (n + 1) by omega] at hnext
  | other hrun hstep hquiet hother ih =>
    obtain ⟨hs', hlive', hat'⟩ := ih
    exact ⟨hs'.step hstep, hquiet.living hs' hlive' hstep,
      fun hn => QueuedAt.quiet hs' hlive' (hat' hn) hstep hquiet hother⟩

end TaskRun

open TaskRun

/-- **No overtaking.**  A ready task at index `k ≥ 1` of its queue is never further back after a step;
a `SwitchTask` at its level moves it to `k - 1`; and along a run in which no task of its level sleeps or
finishes it is at `k - n` after `n` of these, so that it reaches the front with the `k`-th. -/
theorem no_overtaking {s : TaskRun} {t k : Nat}
    (h : Reachable (· = .init) (GuardedStep TaskStep fun _ _ => True) s) (hlive : t ∈ s.tm.tasks)
    (hat : s.tm.QueuedAt t k) (hk : 1 ≤ k) :
    (∀ event s', TaskStep s event s' → event ≠ .call (.sleep t) → event ≠ .call (.sleepId t) →
      ∃ k' ≤ k, s'.tm.QueuedAt t k') ∧
    (∀ s', TaskStep s (.call .switchTask) s' → s.tm.currentLevel = (s.tm.task t).level →
      s'.tm.QueuedAt t (k - 1)) ∧
    ∀ n s', QuietRun t s n s' → n ≤ k → s'.tm.QueuedAt t (k - n) := by
  have hs := Sound.of_reachable h
  exact ⟨fun event s' hstep hsleep hsleepId => QueuedAt.step hs hlive hat hk hstep hsleep hsleepId,
    fun s' hstep hlevel => QueuedAt.switchTask hs hlive hat hk hstep hlevel,
    fun n s' hrun hn => (hrun.queuedAt hs hlive hat).2.2 hn⟩

/-- Task 4 waits behind task 3, which is running: the next `SwitchTask` lets it run. -/
theorem no_overtaking_second :
    ∃ s : TaskRun, s.tm.currentTask = some 3 ∧ s.tm.running 1 = [3, 4] ∧
      ∀ s', TaskStep s (.call .switchTask) s' → s'.tm.QueuedAt 4 0 := by
  have hrun : Reachable (· = .init) (GuardedStep TaskStep fun _ _ => True) .init := .start rfl
  have hrun := hrun.next ⟨.call .newTask, trivial, .call .newTask _ nofun trivial rfl⟩
  have hrun := hrun.next ⟨.call .newTask, trivial, .call .newTask _ nofun trivial rfl⟩
  have hrun := hrun.next ⟨.call (.wakeupId 3), trivial, .call (.wakeupId 3) _ nofun trivial rfl⟩
  have hrun := hrun.next ⟨.call (.wakeupId 4), trivial, .call (.wakeupId 4) _ nofun trivial rfl⟩
  have hrun := hrun.next ⟨.receiveSleep 1, trivial,
    .receiveSleep 1 _ _ rfl (by decide) rfl rfl rfl⟩
  have hnext := (no_overtaking (t := 4) (k := 1) hrun (by decide) rfl (by decide)).2.1
  exact ⟨_, rfl, rfl, fun s' hstep => hnext s' hstep rfl⟩

end MikanSaos
