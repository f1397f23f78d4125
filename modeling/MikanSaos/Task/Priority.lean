import MikanSaos.Task.TaskRun

/-!
# Priority — the running task is one of the highest level that has a ready task

`_current_level` is chosen anew only when `_level_changed` is set or a queue has run empty.  `Prioritized`
says why that is enough: without the flag nothing above the current level is queued.
-/

open Reasoning

namespace MikanSaos

namespace TaskManager

variable {tm tm' : TaskManager} {t : Nat}

/-- Without the flag, every queue above the current level is empty. -/
def Prioritized (tm : TaskManager) : Prop :=
  tm.levelChanged = false → ∀ lv, tm.currentLevel < lv → lv ≤ kMaxLevel → tm.running lv = []

/-- The running task is the front of the highest queue that is not empty. -/
def RunsHighest (tm : TaskManager) : Prop :=
  ∃ t rest, tm.running tm.currentLevel = t :: rest ∧ tm.currentTask = some t ∧
    tm.currentLevel ≤ kMaxLevel ∧
    ∀ lv, tm.currentLevel < lv → lv ≤ kMaxLevel → tm.running lv = []

theorem RunsHighest.prioritized (h : tm.RunsHighest) : tm.Prioritized := by
  obtain ⟨-, -, -, -, -, habove⟩ := h
  exact fun _ => habove

theorem RunsHighest.of_above (hcurrent : tm.currentLevel ≤ kMaxLevel) (hsel : tm.Selected)
    (habove : ∀ lv, tm.currentLevel < lv → lv ≤ kMaxLevel → tm.running lv = []) :
    tm.RunsHighest := by
  obtain ⟨t, rest, hfront⟩ := hsel.exists_current
  exact ⟨t, rest, hfront, by rw [currentTask, hfront]; rfl, hcurrent, habove⟩

/-- The choice of the level at the end of `RotateCurrentRunQueue` finds the highest queue: either it
searches, or nothing has come up above the current level. -/
theorem Prioritized.reselectLevel (h : tm.Prioritized)
    (hqueue : ∃ lv ≤ kMaxLevel, tm.running lv ≠ []) (hcurrent : tm.currentLevel ≤ kMaxLevel) :
    tm.reselectLevel.RunsHighest := by
  obtain ⟨lv, hlv, hle, hne, habove⟩ := highestLevel_spec tm.running kMaxLevel hqueue
  unfold TaskManager.reselectLevel
  dsimp only
  split
  · rw [hlv, Option.getD_some]
    exact RunsHighest.of_above hle hne habove
  · rename_i hkeep
    rw [Bool.or_eq_true, not_or] at hkeep
    apply RunsHighest.of_above
    · exact hcurrent
    · show tm.running tm.currentLevel ≠ []
      intro hempty
      exact hkeep.2 (by rw [hempty]; rfl)
    · exact h (by simpa using hkeep.1)

/-- Queues that only lose tasks, at the same level and with the same flag. -/
theorem Prioritized.shrink (h : tm.Prioritized) (hcurrent : tm'.currentLevel = tm.currentLevel)
    (hflag : tm'.levelChanged = tm.levelChanged)
    (hqueue : ∀ lv ≤ kMaxLevel, tm.currentLevel < lv → tm.running lv = [] → tm'.running lv = []) :
    tm'.Prioritized := by
  intro hf lv hlt hle
  rw [hcurrent] at hlt
  rw [hflag] at hf
  exact hqueue lv hle hlt (h hf lv hlt hle)

theorem Prioritized.park (h : tm.Prioritized) (hq : tm.Queued) (t : Nat) :
    (tm.park t).Prioritized := by
  refine h.shrink ?_ ?_ fun lv hle _ hempty => ?_
  · rfl
  · rfl
  show (tm.park t).running lv = []
  rw [park_running hq hle, hempty]
  rfl

/-! ## The operations -/

theorem Prioritized.switchTask (h : tm.Prioritized) (hs : tm.Sound)
    (hrun : tm.switchTask = some tm') : tm'.RunsHighest := by
  obtain ⟨t, rest, hfront⟩ := hs.selected.exists_current
  rw [TaskManager.switchTask, rotate_eq hfront] at hrun
  cases hrun
  have hprio : (tm.setQueue tm.currentLevel (rest ++ [t])).Prioritized := by
    refine h.shrink ?_ ?_ fun lv _ hlt hempty => ?_
    · rfl
    · rfl
    rw [setQueue_of_ne _ _ _ (show lv ≠ tm.currentLevel by omega)]
    exact hempty
  refine hprio.reselectLevel ⟨tm.currentLevel, hs.queued.current_le, ?_⟩ hs.queued.current_le
  rw [setQueue_self]
  exact List.append_ne_nil_of_right_ne_nil _ (List.cons_ne_nil t [])

/-- `Sleep` of the running task lets the highest level run; another task leaves its queue only. -/
theorem Prioritized.sleep (h : tm.Prioritized) (hs : tm.Sound) (hidle : t ≠ idleId)
    (hrun : tm.sleep t = some tm') :
    tm'.Prioritized ∧ (tm.currentTask = some t → tm'.RunsHighest) := by
  by_cases hr : (tm.task t).readyOrRunning = true
  · rw [hs.sleep_eq hr] at hrun
    cases hrun
    split
    · rename_i hcur
      have hparked := hs.queued.park hidle
      have hhighest := (h.park hs.queued t).reselectLevel hparked.exists_queue hparked.current_le
      exact ⟨hhighest.prioritized, fun _ => hhighest⟩
    · rename_i hne
      exact ⟨h.park hs.queued t, fun hcur => absurd hcur hne⟩
  · rw [TaskManager.sleep, if_neg hr] at hrun
    cases hrun
    refine ⟨h, fun hcur => ?_⟩
    obtain ⟨-, -, hready, -⟩ := hs.current_queue hcur
    exact absurd hready hr

theorem Prioritized.wakeup (h : tm.Prioritized) (hrun : tm.wakeup t = some tm') :
    tm'.Prioritized := by
  by_cases hr : (tm.task t).readyOrRunning = true
  · rw [TaskManager.wakeup, if_pos hr, changeLevelRunning, if_pos (Or.inl (by decide))] at hrun
    cases hrun
    exact h
  · have hrunning := wakeup_running hrun
    rw [TaskManager.wakeup, if_neg hr] at hrun
    dsimp only at hrun
    rw [if_pos (show (-1 : Int) < 0 by decide)] at hrun
    cases hrun
    split at hrunning
    · -- a level above the current one: the flag is set
      rename_i hlt
      intro hflag
      rw [if_pos hlt] at hflag
      cases hflag
    · rename_i hle
      rw [if_neg hle]
      refine h.shrink ?_ ?_ fun lv _ hlt hempty => ?_
      · rfl
      · rfl
      rw [hrunning lv, hempty, if_neg, List.append_nil]
      rintro ⟨-, rfl⟩
      exact hle hlt

theorem Prioritized.setWaiter (h : tm.Prioritized) (id : Nat) (w : Option Nat) :
    (tm.setWaiter id w).Prioritized := h

/-- `Finish` lets the highest level run, and then wakes the task that waits. -/
theorem Prioritized.finish (h : tm.Prioritized) (hs : tm.Sound) {code : Int}
    (hcur : tm.currentTask = some t) (hidle : t ≠ idleId) (hrun : tm.finish code = some tm') :
    tm'.Prioritized ∧ ∃ tm₁, tm.rotateCurrentRunQueue true = some (t, tm₁) ∧ tm₁.RunsHighest := by
  obtain ⟨rest, hfront, -, hl, hlive⟩ := hs.current_queue hcur
  have hrest := (hs.queued.filter_front hfront).1
  -- the queues are those of a task that went to sleep
  have hqueues : (tm.setQueue tm.currentLevel rest).running = (tm.park t).running := by
    funext lv
    unfold TaskManager.park eraseFrom
    rw [hl, hrest]
    rfl
  have hprio : (tm.setQueue tm.currentLevel rest).Prioritized := by
    refine (h.park hs.queued t).shrink ?_ ?_ fun lv _ _ hempty => ?_
    · rfl
    · rfl
    rw [hqueues]
    exact hempty
  have hhighest := hprio.reselectLevel
    (by rw [hqueues]; exact (hs.queued.park hidle).exists_queue) hs.queued.current_le
  refine ⟨?_, _, rotate_eq hfront true, hhighest⟩
  rw [finish_eq hfront, ← reselectLevel_removeFinished] at hrun
  dsimp only at hrun
  cases hw : tm.finishWaiter t with
  | none =>
    rw [hw] at hrun
    cases hrun
    exact hhighest.prioritized
  | some w =>
    rw [hw] at hrun
    have hgone : (((tm.setQueue tm.currentLevel rest).reselectLevel.removeFinished t code).setWaiter t
      none).Prioritized := hhighest.prioritized
    exact hgone.wakeup hrun

theorem Prioritized.run (h : tm.Prioritized) (hs : tm.Sound) {c : SchedulerCall}
    (hfin : ∀ exitCode, c ≠ .finish exitCode) (ha : c.Allowed tm) (hrun : c.run tm = some tm') :
    tm'.Prioritized := by
  cases c with
  | newTask =>
    cases hrun
    exact h
  | switchTask => exact (h.switchTask hs hrun).prioritized
  | sleep task => exact (h.sleep hs ha.2 hrun).1
  | wakeup task => exact h.wakeup hrun
  | finish exitCode => exact absurd rfl (hfin exitCode)
  | sleepId id =>
    rcases withTaskId_cases hrun with ⟨-, hop⟩ | ⟨-, rfl⟩
    · exact (h.sleep hs ha hop).1
    · exact h
  | wakeupId id =>
    rcases withTaskId_cases hrun with ⟨-, hop⟩ | ⟨-, rfl⟩
    · exact h.wakeup hop
    · exact h
  | sendMessage id msg =>
    rcases withTaskId_cases hrun with ⟨-, hop⟩ | ⟨-, rfl⟩
    · have hmsgs : (tm.setMsgs id ((tm.task id).msgs ++ [msg])).Prioritized := h
      exact hmsgs.wakeup hop
    · exact h

end TaskManager

open TaskManager

namespace TaskRun

variable {s s' : TaskRun} {event : TaskEvent}

structure Scheduled (s : TaskRun) : Prop where
  sound : s.Sound
  prioritized : s.tm.Prioritized

theorem Scheduled.init : TaskRun.init.Scheduled := by
  refine ⟨Sound.init, fun _ lv hlt hle => ?_⟩
  -- the main task runs at the highest level
  replace hlt : kMaxLevel < lv := hlt
  omega

theorem Scheduled.step (h : s.Scheduled) (hstep : TaskStep s event s') : s'.Scheduled := by
  obtain ⟨hs, hp⟩ := h
  refine ⟨hs.step hstep, ?_⟩
  cases hstep with
  | call c tm hfin hallowed hrun => exact hp.run hs.tm hfin hallowed hrun
  | receive t msg tm hcur hwaits hrun =>
    obtain ⟨msgs, -, rfl⟩ := taskReceiveMessage_some hrun
    exact hp
  | receiveSleep t tm tm' hcur hidle hwaits hrun hsleep =>
    obtain ⟨-, rfl⟩ := taskReceiveMessage_none hrun
    exact (hp.sleep hs.tm hidle hsleep).1
  | waitFinish t id hcur hidle hwaits => exact hp
  | waitReturn t id exitCode tm hcur hwaits hrun =>
    obtain ⟨-, rfl⟩ := waitFinishRound_some hrun
    exact hp
  | waitSleep t id tm hcur hidle hwaits hrun =>
    obtain ⟨-, hsleep⟩ := waitFinishRound_none hrun
    have hsound := hs.tm.setWaiter id (hs.current_mem hcur)
    exact ((hp.setWaiter id (some t)).sleep hsound hidle hsleep).1
  | finish t exitCode tm hcur hidle hwaits hrun => exact (hp.finish hs.tm hcur hidle hrun).1

theorem Scheduled.of_reachable {guard : TaskRun → TaskEvent → Prop}
    (h : Reachable (· = .init) (GuardedStep TaskStep guard) s) : s.Scheduled := by
  refine h.invariant ?_ ?_
  · rintro _ rfl
    exact Scheduled.init
  · rintro s s' hi ⟨event, -, hstep⟩
    exact hi.step hstep

end TaskRun

open TaskRun

/-- **Strict priority.**  Without the flag, nothing above the current level is queued; and every
`RotateCurrentRunQueue`, in `SwitchTask`, in `Sleep` of the running task and in `Finish`, leaves the front
of the highest queue that is not empty running. -/
theorem strict_priority {s : TaskRun}
    (h : Reachable (· = .init) (GuardedStep TaskStep fun _ _ => True) s) :
    (s.tm.levelChanged = false →
      ∀ lv, s.tm.currentLevel < lv → lv ≤ kMaxLevel → s.tm.running lv = []) ∧
    (∃ tm, s.tm.switchTask = some tm ∧ tm.RunsHighest) ∧
    (∀ t, s.tm.currentTask = some t → t ≠ idleId →
      ∃ tm, s.tm.sleep t = some tm ∧ tm.RunsHighest) ∧
    ∀ t exitCode tm, s.tm.currentTask = some t → t ≠ idleId → s.tm.finish exitCode = some tm →
      ∃ tm₁, s.tm.rotateCurrentRunQueue true = some (t, tm₁) ∧ tm₁.RunsHighest := by
  obtain ⟨hs, hp⟩ := Scheduled.of_reachable h
  refine ⟨hp, ?_, ?_, ?_⟩
  · obtain ⟨tm, hrun, -⟩ := hs.tm.switchTask
    exact ⟨tm, hrun, hp.switchTask hs.tm hrun⟩
  · intro t hcur hidle
    obtain ⟨tm, hrun, -⟩ := hs.tm.sleep hidle
    exact ⟨tm, hrun, (hp.sleep hs.tm hidle hrun).2 hcur⟩
  · intro t exitCode tm hcur hidle hrun
    exact (hp.finish hs.tm hcur hidle hrun).2

/-- Two new tasks are woken while the main task runs; it goes to sleep, and the first of them runs. -/
theorem strict_priority_two_tasks :
    ∃ s : TaskRun, s.tm.currentTask = some 3 ∧ s.tm.running 1 = [3, 4] ∧
      ∃ tm, s.tm.switchTask = some tm ∧ tm.RunsHighest := by
  have hrun : Reachable (· = .init) (GuardedStep TaskStep fun _ _ => True) .init := .start rfl
  have hrun := hrun.next ⟨.call .newTask, trivial, .call .newTask _ nofun trivial rfl⟩
  have hrun := hrun.next ⟨.call .newTask, trivial, .call .newTask _ nofun trivial rfl⟩
  have hrun := hrun.next ⟨.call (.wakeupId 3), trivial, .call (.wakeupId 3) _ nofun trivial rfl⟩
  have hrun := hrun.next ⟨.call (.wakeupId 4), trivial, .call (.wakeupId 4) _ nofun trivial rfl⟩
  have hrun := hrun.next ⟨.receiveSleep 1, trivial,
    .receiveSleep 1 _ _ rfl (by decide) rfl rfl rfl⟩
  exact ⟨_, rfl, rfl, (strict_priority hrun).2.1⟩

end MikanSaos
