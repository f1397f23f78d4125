import MikanSaos.Task.Priority

/-!
# LevelChange — `Wakeup` of a ready task with a level

The callers in the kernel pass no level, so that a task keeps the one it was made with.  With one,
`ChangeLevelRunning` moves a ready task to another queue: it does what it should for the running task, and
goes on to the lines for the running task after it has moved another one.
-/

open Reasoning

namespace MikanSaos

namespace TaskManager

variable {tm tm' : TaskManager} {t l lv : Nat}

/-- `t` is queued once, at level `l`; the other tasks are queued as they were; the same task is running; and
a queue above the current level leaves the flag set. -/
structure Relevelled (tm tm' : TaskManager) (t l : Nat) : Prop where
  once : (tm'.running l).count t = 1
  only : ∀ lv ≤ kMaxLevel, lv ≠ l → t ∉ tm'.running lv
  level : (tm'.task t).level = l
  others : ∀ lv ≤ kMaxLevel, (tm'.running lv).filter (· ≠ t) = (tm.running lv).filter (· ≠ t)
  current : tm'.currentTask = tm.currentTask
  flag : tm'.Prioritized

/-! ## The cases of `Wakeup` -/

theorem wakeup_same (hr : (tm.task t).readyOrRunning = true) :
    tm.wakeup t ((tm.task t).level : Int) = some tm := by
  rw [wakeup, if_pos hr, changeLevelRunning, if_pos (.inr rfl)]

/-- A task that is not ready, put at the end of the queue of `l`. -/
def enqueueAt (tm : TaskManager) (t l : Nat) : TaskManager :=
  { ((tm.setLevel t l).setReadyOrRunning t true).setQueue l (tm.running l ++ [t]) with
    levelChanged := if tm.currentLevel < l then true else tm.levelChanged }

theorem wakeup_enqueueAt (hparked : (tm.task t).readyOrRunning = false) (l : Nat) :
    tm.wakeup t (l : Int) = some (tm.enqueueAt t l) := by
  have hlevel : ¬ (l : Int) < 0 := by omega
  rw [wakeup, if_neg (by simp [hparked])]
  dsimp only
  rw [if_neg hlevel, Int.toNat_natCast, enqueueAt]
  by_cases hlt : tm.currentLevel < l
  · rw [if_pos hlt, if_pos (by exact hlt)]
    rfl
  · rw [if_neg hlt, if_neg (by exact hlt)]
    rfl

/-- The running task, moved to the front of the queue of `l`, which becomes the current one. -/
def moveCurrent (tm : TaskManager) (t l : Nat) : TaskManager :=
  let tm₁ := tm.setQueue tm.currentLevel (tm.running tm.currentLevel).tail
  { (tm₁.setQueue l (t :: tm₁.running l)).setLevel t l with
    currentLevel := l
    levelChanged := if tm.currentLevel ≤ l then tm.levelChanged else true }

theorem Sound.wakeup_moveCurrent (h : tm.Sound) (hcur : tm.currentTask = some t)
    (hne : l ≠ (tm.task t).level) : tm.wakeup t (l : Int) = some (tm.moveCurrent t l) := by
  obtain ⟨-, -, hr, -⟩ := h.current_queue hcur
  have hlevel : ¬ ((l : Int) < 0 ∨ (l : Int) = (tm.task t).level) := by omega
  rw [TaskManager.wakeup, if_pos hr, changeLevelRunning, if_neg hlevel]
  dsimp only
  rw [hcur, Int.toNat_natCast]
  dsimp only
  rw [if_neg (not_not.mpr rfl), moveCurrent]
  by_cases hle : tm.currentLevel ≤ l
  · rw [if_pos hle, if_pos (by exact hle)]
    rfl
  · rw [if_neg hle, if_neg (by exact hle)]

/-- Another ready task, moved to the end of the queue of `l`. -/
def moveOther (tm : TaskManager) (t l : Nat) : TaskManager :=
  let tm₁ := tm.eraseFrom (tm.task t).level t
  let tm₂ := (tm₁.setQueue l (tm₁.running l ++ [t])).setLevel t l
  if tm₂.currentLevel < l then { tm₂ with levelChanged := true } else tm₂

/-- The lines for the running task run for another one too. -/
theorem wakeup_moveOther (hr : (tm.task t).readyOrRunning = true) {front : Nat}
    (hcur : tm.currentTask = some front) (hother : t ≠ front) (hne : l ≠ (tm.task t).level) :
    tm.wakeup t (l : Int) = some ((tm.moveOther t l).moveCurrent t l) := by
  have hlevel : ¬ ((l : Int) < 0 ∨ (l : Int) = (tm.task t).level) := by omega
  rw [TaskManager.wakeup, if_pos hr, changeLevelRunning, if_neg hlevel]
  dsimp only
  rw [hcur, Int.toNat_natCast]
  dsimp only
  rw [if_pos hother]
  by_cases hle : (tm.moveOther t l).currentLevel ≤ l
  · refine (if_pos hle).trans ?_
    rw [moveCurrent, if_pos hle]
    rfl
  · refine (if_neg hle).trans ?_
    rw [moveCurrent, if_neg hle]
    rfl

/-- So the task comes to stand in its new queue twice. -/
theorem moveOther_running {front : Nat} (hcur : tm.currentTask = some front)
    (hne : l ≠ (tm.task t).level) : ∃ q, ((tm.moveOther t l).moveCurrent t l).running l = t :: (q ++ [t]) := by
  obtain ⟨rest, hfront⟩ := currentTask_queue hcur
  have hqueue : (tm.moveOther t l).running l = tm.running l ++ [t] ∧
      (tm.moveOther t l).currentLevel = tm.currentLevel := by
    have hkept : (tm.eraseFrom (tm.task t).level t).running l = tm.running l := setQueue_of_ne _ _ _ hne
    unfold moveOther
    dsimp only
    split
    · exact ⟨(setQueue_self ..).trans (by rw [hkept]), rfl⟩
    · exact ⟨(setQueue_self ..).trans (by rw [hkept]), rfl⟩
  -- `t` is still at the end of the queue of `l` when the front of the current one is gone
  obtain ⟨q, hq⟩ : ∃ q, ((tm.moveOther t l).setQueue (tm.moveOther t l).currentLevel
      ((tm.moveOther t l).running (tm.moveOther t l).currentLevel).tail).running l = q ++ [t] := by
    rw [hqueue.2]
    by_cases hl : l = tm.currentLevel
    · rw [← hl, setQueue_self, hqueue.1, hl, hfront]
      exact ⟨rest, rfl⟩
    · rw [setQueue_of_ne _ _ _ hl, hqueue.1]
      exact ⟨_, rfl⟩
  exact ⟨q, (setQueue_self ..).trans (congrArg (t :: ·) hq)⟩

/-! ## The running task -/

theorem Sound.moveCurrent_running (h : tm.Sound) (hcur : tm.currentTask = some t)
    (hne : l ≠ (tm.task t).level) (hlv : lv ≤ kMaxLevel) :
    (tm.moveCurrent t l).running lv = (if lv = l then [t] else []) ++ (tm.running lv).filter (· ≠ t) := by
  obtain ⟨rest, hfront, -, hlevel, -⟩ := h.current_queue hcur
  rw [hlevel] at hne
  by_cases hl : lv = l
  · subst hl
    rw [if_pos rfl, h.queued.filter_eq_self hlv (.inr (hlevel ▸ Ne.symm hne))]
    exact (setQueue_self ..).trans (congrArg (t :: ·) (setQueue_of_ne _ _ _ hne))
  · rw [if_neg hl, List.nil_append]
    refine (setQueue_of_ne _ _ _ hl).trans ?_
    by_cases hc : lv = tm.currentLevel
    · rw [hc, setQueue_self, ← (h.queued.filter_front hfront).1, hfront, List.tail_cons]
    · rw [setQueue_of_ne _ _ _ hc, h.queued.filter_eq_self hlv (.inr (hlevel ▸ Ne.symm hc))]

theorem Sound.moveCurrent (h : tm.Sound) (hcur : tm.currentTask = some t)
    (hne : l ≠ (tm.task t).level) (hl : l ≤ kMaxLevel) : (tm.moveCurrent t l).Sound := by
  obtain ⟨-, -, hr, -, hlive⟩ := h.current_queue hcur
  have hqueue : ∀ lv ≤ kMaxLevel, (tm.moveCurrent t l).running lv =
      (if lv = l then [t] else []) ++ (tm.running lv).filter (· ≠ t) :=
    fun _ hlv => h.moveCurrent_running hcur hne hlv
  refine ⟨h.queued.move hlive hl rfl rfl rfl hl ?_ ?_ fun lv hlv => ?_, ?_⟩
  · exact ⟨congrArg Task.level (setTask_self ..), (congrArg Task.readyOrRunning (setTask_self ..)).trans hr⟩
  · exact fun u hu => setTask_of_ne _ _ _ _ hu
  · rw [hqueue lv hlv]
  · show (tm.moveCurrent t l).running l ≠ []
    rw [hqueue l hl, if_pos rfl]
    exact List.cons_ne_nil t _

/-- The level that is left for a lower one has to be looked at again, and above a higher one nothing has
come up. -/
theorem Prioritized.moveCurrent (h : tm.Prioritized) (hs : tm.Sound) (hcur : tm.currentTask = some t)
    (hne : l ≠ (tm.task t).level) : (tm.moveCurrent t l).Prioritized := by
  intro hflag lv hlt hlv
  replace hlt : l < lv := hlt
  replace hflag : (if tm.currentLevel ≤ l then tm.levelChanged else true) = false := hflag
  split at hflag
  · rename_i hle
    rw [hs.moveCurrent_running hcur hne hlv, if_neg (Nat.ne_of_gt hlt), h hflag lv (by omega) hlv]
    rfl
  · cases hflag

theorem Relevelled.moveCurrent (h : tm.Prioritized) (hs : tm.Sound) (hcur : tm.currentTask = some t)
    (hne : l ≠ (tm.task t).level) (hl : l ≤ kMaxLevel) : Relevelled tm (tm.moveCurrent t l) t l := by
  have hqueue : ∀ lv ≤ kMaxLevel, (tm.moveCurrent t l).running lv =
      (if lv = l then [t] else []) ++ (tm.running lv).filter (· ≠ t) :=
    fun _ hlv => hs.moveCurrent_running hcur hne hlv
  constructor
  case once =>
    rw [hqueue l hl, if_pos rfl, List.singleton_append, List.count_cons_self, List.count_eq_zero_of_not_mem]
    simp
  case only =>
    intro lv hlv hother
    rw [hqueue lv hlv, if_neg hother]
    simp
  case level => exact congrArg Task.level (setTask_self ..)
  case others =>
    intro lv hlv
    rw [hqueue lv hlv, List.filter_append, List.filter_filter]
    split <;> simp
  case current =>
    rw [hcur]
    show ((tm.moveCurrent t l).running l).head? = some t
    rw [hqueue l hl, if_pos rfl]
    rfl
  case flag => exact h.moveCurrent hs hcur hne

/-- With its own level a task stays where it is. -/
theorem Relevelled.same (h : tm.Prioritized) (hs : tm.Sound) (ht : t ∈ tm.tasks)
    (hr : (tm.task t).readyOrRunning = true) : Relevelled tm tm t (tm.task t).level := by
  have hlevel := hs.queued.level_le t ht
  refine ⟨?_, fun lv hlv hne hmem => ?_, rfl, fun _ _ => rfl, rfl, h⟩
  · exact List.count_eq_one_of_mem (hs.queued.nodup _ hlevel) (hs.queued.ready t ht hr)
  · exact hne (hs.queued.queued lv hlv t hmem).2.1.symm

/-! ## The other cases -/

theorem Sound.enqueueAt (h : tm.Sound) (ht : t ∈ tm.tasks) (hparked : (tm.task t).readyOrRunning = false)
    (hl : l ≤ kMaxLevel) : (tm.enqueueAt t l).Sound := by
  have hq := h.queued.enqueue ht hl hparked
  refine ⟨hq.congr rfl rfl (fun _ _ => rfl) (fun _ _ => rfl) (fun _ _ => .refl _) hq.current_le hq.waiter, ?_⟩
  show (Function.update tm.running l (tm.running l ++ [t])) tm.currentLevel ≠ []
  by_cases hc : tm.currentLevel = l
  · rw [hc, Function.update_self]
    exact List.append_ne_nil_of_right_ne_nil _ (List.cons_ne_nil t [])
  · rw [Function.update_of_ne hc]
    exact h.selected

theorem Prioritized.enqueueAt (h : tm.Prioritized) : (tm.enqueueAt t l).Prioritized := by
  intro hflag lv hlt hlv
  replace hlt : tm.currentLevel < lv := hlt
  replace hflag : (if tm.currentLevel < l then true else tm.levelChanged) = false := hflag
  split at hflag
  · cases hflag
  · rename_i hle
    refine (setQueue_of_ne _ _ _ ?_).trans (h hflag lv hlt hlv)
    rintro rfl
    exact hle hlt

end TaskManager

open TaskManager

/-! ## Runs -/

inductive LevelEvent where
  | task (event : TaskEvent)
  | wakeup (t l : Nat)

/-- The steps of the tasks, and calls of `Wakeup` that pass a level. -/
inductive LevelStep (s : TaskRun) : LevelEvent → TaskRun → Prop
  | task {event : TaskEvent} {s' : TaskRun} (h : TaskStep s event s') : LevelStep s (.task event) s'
  | wakeup {t l : Nat} {tm : TaskManager} (ht : t ∈ s.tm.tasks) (hl : l ≤ kMaxLevel)
      (hrun : s.tm.wakeup t (l : Int) = some tm) : LevelStep s (.wakeup t l) { s with tm := tm }

/-- The level that is passed for a ready task is its own, or the task is running. -/
def LevelGuard (s : TaskRun) : LevelEvent → Prop
  | .wakeup t l => (s.tm.task t).readyOrRunning = true →
    s.tm.currentTask = some t ∨ l = (s.tm.task t).level
  | .task _ => True

namespace TaskRun

variable {s s' : TaskRun} {event : LevelEvent}

theorem Scheduled.levelStep (h : s.Scheduled) (hguard : LevelGuard s event)
    (hstep : LevelStep s event s') : s'.Scheduled := by
  cases hstep with
  | task hstep => exact h.step hstep
  | @wakeup t l tm ht hl hrun =>
    obtain ⟨⟨hs, hwaiter⟩, hp⟩ := h
    by_cases hr : (s.tm.task t).readyOrRunning = true
    · by_cases hsame : l = (s.tm.task t).level
      · subst hsame
        cases (wakeup_same hr).symm.trans hrun
        exact ⟨⟨hs, hwaiter⟩, hp⟩
      · have hcur := (hguard hr).resolve_right hsame
        cases (hs.wakeup_moveCurrent hcur hsame).symm.trans hrun
        exact ⟨⟨hs.moveCurrent hcur hsame hl, hwaiter⟩, hp.moveCurrent hs hcur hsame⟩
    · have hparked : (s.tm.task t).readyOrRunning = false := by simpa using hr
      cases (wakeup_enqueueAt hparked l).symm.trans hrun
      exact ⟨⟨hs.enqueueAt ht hparked hl, hwaiter⟩, hp.enqueueAt⟩

end TaskRun

open TaskRun

/-- **When a level can be changed.**  In every run that changes the level of no ready task but the running
one, `Wakeup` of a ready task moves it to the queue of the level it passes, and nothing else, iff the task
is the running one or the level is its own. -/
theorem wakeup_relevels_iff {s : TaskRun}
    (h : Reachable (· = .init) (GuardedStep LevelStep LevelGuard) s) {t l : Nat} (ht : t ∈ s.tm.tasks)
    (hr : (s.tm.task t).readyOrRunning = true) (hl : l ≤ kMaxLevel) :
    (∃ tm, s.tm.wakeup t (l : Int) = some tm ∧ Relevelled s.tm tm t l) ↔
      s.tm.currentTask = some t ∨ l = (s.tm.task t).level := by
  have hscheduled : s.Scheduled := by
    apply h.invariant
    · rintro _ rfl
      exact Scheduled.init
    · rintro s s' hi ⟨event, hguard, hstep⟩
      exact hi.levelStep hguard hstep
  obtain ⟨⟨hs, -⟩, hp⟩ := hscheduled
  by_cases hsame : l = (s.tm.task t).level
  · subst hsame
    exact ⟨fun _ => .inr rfl, fun _ => ⟨s.tm, wakeup_same hr, .same hp hs ht hr⟩⟩
  constructor
  · rintro ⟨tm, hrun, hmoved⟩
    obtain ⟨front, -, hcur⟩ := hs.exists_currentTask
    by_cases hfront : t = front
    · exact .inl (hfront ▸ hcur)
    · -- the task stands in its new queue twice
      cases (wakeup_moveOther hr hcur hfront hsame).symm.trans hrun
      obtain ⟨q, hq⟩ := moveOther_running hcur hsame
      have honce := hmoved.once
      rw [hq, List.count_cons_self, List.count_append, List.count_singleton_self] at honce
      omega
  · intro hcur
    have hcur := hcur.resolve_right hsame
    exact ⟨_, hs.wakeup_moveCurrent hcur hsame, .moveCurrent hp hs hcur hsame hl⟩

/-- The main task, which runs at the highest level, puts itself to level 2. -/
theorem wakeup_relevels_iff_main :
    ∃ tm, TaskManager.init.wakeup 1 (2 : Nat) = some tm ∧ Relevelled .init tm 1 2 :=
  (wakeup_relevels_iff (s := .init) (.start rfl) (by decide) rfl (by decide)).mpr (.inl rfl)

/-- The main task starts task 3 and then puts it to level 2: task 3 is queued there twice and runs, and the
main task is in no queue any more. -/
theorem main_task_lost : ∃ s : TaskRun,
    Reachable (· = .init) (GuardedStep LevelStep LevelGuard) s ∧ s.tm.currentTask = some 1 ∧
    s.tm.running 1 = [3] ∧ ∃ tm, s.tm.wakeup 3 (2 : Nat) = some tm ∧ tm.currentTask = some 3 ∧
      tm.running 2 = [3, 3] ∧ (∀ lv ≤ kMaxLevel, 1 ∉ tm.running lv) ∧ ¬ Relevelled s.tm tm 3 2 := by
  have hrun : Reachable (· = .init) (GuardedStep LevelStep LevelGuard) .init := .start rfl
  have hrun := hrun.next ⟨.task (.call .newTask), trivial, .task (.call .newTask _ nofun trivial rfl)⟩
  have hrun := hrun.next ⟨.task (.call (.wakeupId 3)), trivial,
    .task (.call (.wakeupId 3) _ nofun trivial rfl)⟩
  refine ⟨_, hrun, rfl, rfl, _, rfl, rfl, rfl, by decide, fun hmoved => ?_⟩
  exact absurd hmoved.once (by decide)

end MikanSaos
