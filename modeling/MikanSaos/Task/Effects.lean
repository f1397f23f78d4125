import MikanSaos.Task.RunQueues

/-!
# Effects — what an operation leaves behind in the task objects and in each queue

One lemma per operation: `_task` says which task objects change, `_running` what becomes of the queue of
a level.  The proofs about runs use these and do not open the operations again.
-/

namespace MikanSaos

namespace TaskManager

variable {tm tm' : TaskManager} {t u lv : Nat}

theorem reselectLevel_task (tm : TaskManager) : tm.reselectLevel.task = tm.task := by
  obtain ⟨_, _, h⟩ := tm.reselectLevel_eq
  rw [h]

theorem reselectLevel_running (tm : TaskManager) : tm.reselectLevel.running = tm.running := by
  obtain ⟨_, _, h⟩ := tm.reselectLevel_eq
  rw [h]

theorem currentTask_queue (hcur : tm.currentTask = some t) : ∃ rest, tm.running tm.currentLevel = t :: rest :=
  List.head?_eq_some_iff.mp hcur

/-- The running task is ready, is queued first at the current level, and lives. -/
theorem Sound.current_queue (h : tm.Sound) (hcur : tm.currentTask = some t) :
    ∃ rest, tm.running tm.currentLevel = t :: rest ∧ (tm.task t).readyOrRunning = true ∧
      (tm.task t).level = tm.currentLevel ∧ t ∈ tm.tasks := by
  obtain ⟨front, rest, hfront⟩ := h.selected.exists_current
  obtain rfl : front = t := by
    rw [currentTask, hfront] at hcur
    exact Option.some.inj hcur
  have hin : front ∈ tm.running tm.currentLevel := by
    rw [hfront]
    exact List.mem_cons_self
  obtain ⟨hlive, hl, hr⟩ := h.queued.queued _ h.queued.current_le front hin
  exact ⟨rest, hfront, hr, hl, hlive⟩

/-! ## Task objects -/

theorem switchTask_task (h : tm.switchTask = some tm') : tm'.task = tm.task := by
  unfold switchTask rotateCurrentRunQueue at h
  split at h
  · cases h
  · cases h
    exact reselectLevel_task _

/-- `Sleep` clears the flag of the task. -/
theorem sleep_task (h : tm.sleep t = some tm') :
    tm'.task = Function.update tm.task t { tm.task t with readyOrRunning := false } := by
  unfold sleep at h
  split at h
  · dsimp only at h
    split at h
    · cases h
    · split at h
      · -- the running task: the rotation does not touch the task objects
        unfold rotateCurrentRunQueue at h
        split at h
        · cases h
        · cases h
          exact reselectLevel_task _
      · cases h
        rfl
  · rename_i hr
    cases h
    have hsame : { tm.task t with readyOrRunning := false } = tm.task t := by
      rw [← Bool.not_eq_true _ |>.mp hr]
    rw [hsame, Function.update_eq_self]

/-- `Wakeup` sets the flag of the task. -/
theorem wakeup_task (h : tm.wakeup t = some tm') :
    tm'.task = Function.update tm.task t { tm.task t with readyOrRunning := true } := by
  by_cases hr : (tm.task t).readyOrRunning = true
  · rw [wakeup, if_pos hr, changeLevelRunning, if_pos (Or.inl (by decide))] at h
    cases h
    have hsame : { tm.task t with readyOrRunning := true } = tm.task t := by rw [← hr]
    rw [hsame, Function.update_eq_self]
  · have hparked : (tm.task t).readyOrRunning = false := by simpa using hr
    obtain ⟨changed, heq⟩ := wakeup_parked hparked
    rw [heq] at h
    cases h
    show Function.update (Function.update tm.task t _) t _ = _
    rw [Function.update_idem, setLevel, setTask_self]

theorem taskSendMessage_task {msg : Message} (h : tm.taskSendMessage t msg = some tm') :
    tm'.task = Function.update tm.task t
      { tm.task t with msgs := (tm.task t).msgs ++ [msg], readyOrRunning := true } := by
  rw [wakeup_task h]
  show Function.update (Function.update tm.task t _) t _ = _
  rw [Function.update_idem]
  show Function.update tm.task t { (Function.update tm.task t _ t) with readyOrRunning := true } = _
  rw [Function.update_self]

/-- `Finish` touches the task that waits for the finished one, and only its flag. -/
theorem finish_task {code : Int} (hcur : tm.currentTask = some t) (h : tm.finish code = some tm') :
    tm'.task = match tm.finishWaiter t with
      | some w => Function.update tm.task w { tm.task w with readyOrRunning := true }
      | none => tm.task := by
  obtain ⟨rest, hfront⟩ := currentTask_queue hcur
  have hgone : ((((tm.setQueue tm.currentLevel rest).removeFinished t code).setWaiter t
      none).reselectLevel).task = tm.task := reselectLevel_task _
  rw [finish_eq hfront] at h
  dsimp only at h
  cases hw : tm.finishWaiter t with
  | none =>
    rw [hw] at h
    cases h
    exact hgone
  | some w =>
    rw [hw] at h
    rw [wakeup_task h, hgone]

/-! ## Ids -/

theorem reselectLevel_ids (tm : TaskManager) :
    tm.reselectLevel.lastId = tm.lastId ∧ tm.reselectLevel.tasks = tm.tasks := by
  obtain ⟨_, _, h⟩ := tm.reselectLevel_eq
  rw [h]
  exact ⟨rfl, rfl⟩

theorem switchTask_ids (h : tm.switchTask = some tm') : tm'.lastId = tm.lastId ∧ tm'.tasks = tm.tasks := by
  unfold switchTask rotateCurrentRunQueue at h
  split at h
  · cases h
  · cases h
    exact reselectLevel_ids _

theorem sleep_ids (h : tm.sleep t = some tm') : tm'.lastId = tm.lastId ∧ tm'.tasks = tm.tasks := by
  unfold sleep at h
  split at h
  · dsimp only at h
    split at h
    · cases h
    · split at h
      · unfold rotateCurrentRunQueue at h
        split at h
        · cases h
        · cases h
          exact reselectLevel_ids _
      · cases h
        exact ⟨rfl, rfl⟩
  · cases h
    exact ⟨rfl, rfl⟩

theorem wakeup_ids (h : tm.wakeup t = some tm') : tm'.lastId = tm.lastId ∧ tm'.tasks = tm.tasks := by
  by_cases hr : (tm.task t).readyOrRunning = true
  · rw [wakeup, if_pos hr, changeLevelRunning, if_pos (Or.inl (by decide))] at h
    cases h
    exact ⟨rfl, rfl⟩
  · have hparked : (tm.task t).readyOrRunning = false := by simpa using hr
    obtain ⟨changed, heq⟩ := wakeup_parked hparked
    rw [heq] at h
    cases h
    exact ⟨rfl, rfl⟩

theorem taskSendMessage_ids {msg : Message} (h : tm.taskSendMessage t msg = some tm') :
    tm'.lastId = tm.lastId ∧ tm'.tasks = tm.tasks := by
  have hids := wakeup_ids h
  exact hids

/-- The finished task no longer lives. -/
theorem finish_ids {code : Int} (hcur : tm.currentTask = some t) (h : tm.finish code = some tm') :
    tm'.lastId = tm.lastId ∧ tm'.tasks = tm.tasks.erase t := by
  obtain ⟨rest, hfront⟩ := currentTask_queue hcur
  have hgone := reselectLevel_ids (((tm.setQueue tm.currentLevel rest).removeFinished t code).setWaiter t none)
  rw [finish_eq hfront] at h
  dsimp only at h
  cases hw : tm.finishWaiter t with
  | none =>
    rw [hw] at h
    cases h
    exact hgone
  | some w =>
    rw [hw] at h
    have hwoken := wakeup_ids h
    rw [hgone.1, hgone.2] at hwoken
    exact hwoken

/-! ## Queues -/

theorem switchTask_running {rest : List Nat} (hfront : tm.running tm.currentLevel = t :: rest)
    (h : tm.switchTask = some tm') :
    tm'.running = Function.update tm.running tm.currentLevel (rest ++ [t]) := by
  rw [switchTask, rotate_eq hfront] at h
  cases h
  exact reselectLevel_running _

theorem park_running (h : tm.Queued) (hlv : lv ≤ kMaxLevel) :
    (tm.park t).running lv = (tm.running lv).filter (· ≠ t) := by
  unfold park eraseFrom setReadyOrRunning
  by_cases hl : lv = (tm.task t).level
  · rw [hl, setQueue_self]
    rfl
  · rw [setQueue_of_ne _ _ _ hl]
    exact (h.filter_eq_self hlv (.inr (Ne.symm hl))).symm

theorem sleep_running (hsound : tm.Sound) (h : tm.sleep t = some tm') (hlv : lv ≤ kMaxLevel) :
    tm'.running lv = (tm.running lv).filter (· ≠ t) := by
  by_cases hr : (tm.task t).readyOrRunning = true
  · rw [hsound.sleep_eq hr] at h
    cases h
    split
    · rw [reselectLevel_running]
      exact park_running hsound.queued hlv
    · exact park_running hsound.queued hlv
  · rw [sleep, if_neg hr] at h
    cases h
    exact (hsound.queued.filter_eq_self hlv (.inl (by simpa using hr))).symm

theorem wakeup_running (h : tm.wakeup t = some tm') (lv : Nat) :
    tm'.running lv = tm.running lv ++
      if (tm.task t).readyOrRunning = false ∧ (tm.task t).level = lv then [t] else [] := by
  by_cases hr : (tm.task t).readyOrRunning = true
  · rw [wakeup, if_pos hr, changeLevelRunning, if_pos (Or.inl (by decide))] at h
    cases h
    rw [if_neg (by simp [hr]), List.append_nil]
  · have hparked : (tm.task t).readyOrRunning = false := by simpa using hr
    obtain ⟨changed, heq⟩ := wakeup_parked hparked
    rw [heq] at h
    cases h
    by_cases hl : (tm.task t).level = lv
    · rw [if_pos ⟨hparked, hl⟩, ← hl]
      exact setQueue_self ..
    · rw [if_neg (fun hc => hl hc.2), List.append_nil]
      exact setQueue_of_ne _ _ _ (Ne.symm hl)

/-- The finished task leaves its queue; the task that waited for it may be put behind the others. -/
theorem finish_running (hsound : tm.Sound) {code : Int} (hcur : tm.currentTask = some t)
    (h : tm.finish code = some tm') (hlv : lv ≤ kMaxLevel) :
    ∃ woken, tm'.running lv = (tm.running lv).filter (· ≠ t) ++ woken := by
  obtain ⟨rest, hfront, hr, hl, -⟩ := hsound.current_queue hcur
  have hgone : ((((tm.setQueue tm.currentLevel rest).removeFinished t code).setWaiter t
      none).reselectLevel).running lv = (tm.running lv).filter (· ≠ t) := by
    rw [reselectLevel_running]
    show (tm.setQueue tm.currentLevel rest).running lv = _
    by_cases hcl : lv = tm.currentLevel
    · rw [hcl, setQueue_self]
      exact (hsound.queued.filter_front hfront).1
    · rw [setQueue_of_ne _ _ _ hcl, hsound.queued.filter_eq_self hlv (.inr (hl ▸ Ne.symm hcl))]
  rw [finish_eq hfront] at h
  dsimp only at h
  cases hw : tm.finishWaiter t with
  | none =>
    rw [hw] at h
    cases h
    exact ⟨[], by rw [hgone, List.append_nil]⟩
  | some w =>
    rw [hw] at h
    rw [wakeup_running h lv, hgone]
    exact ⟨_, rfl⟩

end TaskManager

end MikanSaos
