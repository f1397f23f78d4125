import MikanSaos.Task.TaskRun

/-!
# ExitCodes — `Finish` hands its code to the task in `WaitFinish`

The code of a finished task is kept until the one `WaitFinish` for it has returned it, and a waiter that
sleeps is registered, so that `Finish` will wake it.
-/

open Reasoning

namespace MikanSaos

open TaskManager

namespace TaskRun

/-- Nobody puts a task to sleep that is in `WaitFinish`, and an id is waited for once. -/
def HandOverGuard (s : TaskRun) : TaskEvent → Prop
  | .call (.sleep t) | .call (.sleepId t) => s.waits t = none
  | .waitFinish _ id => s.waited id = false
  | _ => True

structure HandOver (s : TaskRun) : Prop where
  sound : s.Sound
  finished : ∀ id code, s.tm.finishTasks id = some code → s.exitCodes id = some code
  gone : ∀ id code, s.exitCodes id = some code → id ∉ s.tm.tasks ∧ id ≤ s.tm.lastId
  kept : ∀ id code, s.exitCodes id = some code →
    s.tm.finishTasks id = some code ∨ id ∈ s.returned.map Prod.fst
  waits : ∀ w id, s.waits w = some id → s.waited id = true ∧ w ∈ s.tm.tasks
  single : ∀ w w' id, s.waits w = some id → s.waits w' = some id → w = w'
  registered : ∀ w id, s.waits w = some id → (s.tm.task w).readyOrRunning = false →
    s.tm.finishWaiter id = some w
  returned : ∀ id code, (id, code) ∈ s.returned →
    s.exitCodes id = some code ∧ s.waited id = true ∧ ∀ w, s.waits w ≠ some id
  once : (s.returned.map Prod.fst).Nodup

variable {s s' : TaskRun} {event : TaskEvent}

/-- The code of the task that `w` waits for is still there. -/
theorem HandOver.pending (h : s.HandOver) {w id : Nat} {code : Int} (hw : s.waits w = some id)
    (hcode : s.exitCodes id = some code) : s.tm.finishTasks id = some code := by
  rcases h.kept id code hcode with hkept | hret
  · exact hkept
  · obtain ⟨⟨id', code'⟩, hmem, rfl⟩ := List.mem_map.mp hret
    exact absurd hw ((h.returned id' code' hmem).2.2 w)

/-- A task whose waiter sleeps has not finished. -/
theorem HandOver.awake (h : s.HandOver) {w id : Nat} {code : Int} (hw : s.waits w = some id)
    (hcode : s.exitCodes id = some code) : (s.tm.task w).readyOrRunning = true := by
  by_contra hasleep
  have hreg := h.registered w id hw (by simpa using hasleep)
  have hnone := (h.sound.waiter id w hreg).2
  rw [h.pending hw hcode] at hnone
  cases hnone

/-- A step that leaves the waits alone, and clears the flag of no task in `WaitFinish`. -/
theorem HandOver.keep (h : s.HandOver) {tm : TaskManager} {sent received : Nat → List Message}
    (hsound : Sound { s with tm := tm, sent := sent, received := received })
    (hcodes : tm.finishTasks = s.tm.finishTasks) (hwaiters : tm.finishWaiter = s.tm.finishWaiter)
    (hlive : ∀ t ∈ s.tm.tasks, t ∈ tm.tasks) (hnew : ∀ t ∈ tm.tasks, t ∈ s.tm.tasks ∨ s.tm.lastId < t)
    (hlast : s.tm.lastId ≤ tm.lastId)
    (hready : ∀ w id, s.waits w = some id → (s.tm.task w).readyOrRunning = true →
      (tm.task w).readyOrRunning = true) :
    HandOver { s with tm := tm, sent := sent, received := received } := by
  refine ⟨hsound, ?_, ?_, ?_, fun w id hw => ⟨(h.waits w id hw).1, hlive w (h.waits w id hw).2⟩,
    h.single, ?_, h.returned, h.once⟩
  · intro id code hcode
    exact h.finished id code (hcodes ▸ hcode)
  · intro id code hcode
    obtain ⟨hgone, hle⟩ := h.gone id code hcode
    refine ⟨fun hin => ?_, Nat.le_trans hle hlast⟩
    rcases hnew id hin with hold | hlt
    · exact hgone hold
    · omega
  · intro id code hcode
    show tm.finishTasks id = some code ∨ _
    rw [hcodes]
    exact h.kept id code hcode
  · intro w id hw hasleep
    show tm.finishWaiter id = some w
    rw [hwaiters]
    apply h.registered w id hw
    by_contra hr
    rw [hready w id hw (by simpa using hr)] at hasleep
    cases hasleep

theorem HandOver.call (h : s.HandOver) {c : SchedulerCall} {tm : TaskManager}
    (hguard : s.HandOverGuard (.call c)) (hfin : ∀ exitCode, c ≠ .finish exitCode)
    (hallowed : c.Allowed s.tm) (hrun : c.run s.tm = some tm) :
    HandOver { s with tm := tm, sent := s.sentBy c } := by
  obtain ⟨-, hcodes, hwaiters, htasks⟩ := h.sound.tm.run_keeps hfin hallowed hrun
  have hlast := (run_ids hfin hrun).1
  apply h.keep (h.sound.step (.call c tm hfin hallowed hrun)) hcodes hwaiters
  · intro t ht
    rw [htasks]
    unfold livingAfter
    split
    · exact List.mem_append_left _ ht
    · exact ht
  · intro t ht
    rw [htasks] at ht
    unfold livingAfter at ht
    split at ht
    · rcases List.mem_append.mp ht with hold | hnew
      · exact .inl hold
      · rw [List.mem_singleton.mp hnew]
        exact .inr (Nat.lt_succ_self _)
    · exact .inl ht
  · rw [hlast]
    split <;> omega
  · intro w id hw hr
    rw [run_task hfin hrun]
    apply tasksAfter_ready (h.sound.tm.queued.tasks_le w (h.waits w id hw).2) _ _ hr
    · rintro rfl
      rw [show s.waits w = none from hguard] at hw
      cases hw
    · rintro rfl
      rw [show s.waits w = none from hguard] at hw
      cases hw

theorem HandOver.startWait (h : s.HandOver) {t id : Nat} (hcur : s.tm.currentTask = some t)
    (hidle : t ≠ idleId) (hwaits : s.waits t = none) (hguard : s.waited id = false) :
    HandOver { s with waits := Function.update s.waits t (some id),
                      waited := Function.update s.waited id true } := by
  obtain ⟨-, -, hready, -, hlive⟩ := h.sound.tm.current_queue hcur
  have hmono : ∀ id', s.waited id' = true → Function.update s.waited id true id' = true := by
    intro id' hw
    by_cases hid : id' = id
    · rw [hid, Function.update_self]
    · rw [Function.update_of_ne hid]
      exact hw
  -- nobody else is in a `WaitFinish` for `id`
  have hfresh : ∀ w, s.waits w ≠ some id := by
    intro w hw
    rw [(h.waits w id hw).1] at hguard
    cases hguard
  have hcases : ∀ w id', Function.update s.waits t (some id) w = some id' →
      (w = t ∧ id' = id) ∨ (w ≠ t ∧ s.waits w = some id') := by
    intro w id' hw
    by_cases hwt : w = t
    · rw [hwt, Function.update_self] at hw
      exact .inl ⟨hwt, (Option.some.inj hw).symm⟩
    · rw [Function.update_of_ne hwt] at hw
      exact .inr ⟨hwt, hw⟩
  refine ⟨h.sound.step (.waitFinish t id hcur hidle hwaits), h.finished, h.gone, h.kept, ?_, ?_, ?_,
    ?_, h.once⟩
  · intro w id' hw
    rcases hcases w id' hw with ⟨rfl, rfl⟩ | ⟨-, hw⟩
    · exact ⟨Function.update_self .., hlive⟩
    · exact ⟨hmono id' (h.waits w id' hw).1, (h.waits w id' hw).2⟩
  · intro w w' id' hw hw'
    rcases hcases w id' hw with ⟨rfl, rfl⟩ | ⟨-, hold⟩
    · rcases hcases w' id' hw' with ⟨rfl, -⟩ | ⟨-, hold'⟩
      · rfl
      · exact absurd hold' (hfresh w')
    · rcases hcases w' id' hw' with ⟨rfl, rfl⟩ | ⟨-, hold'⟩
      · exact absurd hold (hfresh w)
      · exact h.single w w' id' hold hold'
  · intro w id' hw hasleep
    rcases hcases w id' hw with ⟨rfl, -⟩ | ⟨-, hw⟩
    · rw [show (s.tm.task w).readyOrRunning = true from hready] at hasleep
      cases hasleep
    · exact h.registered w id' hw hasleep
  · intro id' code hmem
    obtain ⟨hcode, hwaited, hnone⟩ := h.returned id' code hmem
    refine ⟨hcode, hmono id' hwaited, fun w hw => ?_⟩
    rcases hcases w id' hw with ⟨-, rfl⟩ | ⟨-, hw⟩
    · rw [hwaited] at hguard
      cases hguard
    · exact hnone w hw

theorem HandOver.waitReturn (h : s.HandOver) {t id : Nat} {exitCode : Int} {tm : TaskManager}
    (hcur : s.tm.currentTask = some t) (hwaits : s.waits t = some id)
    (hrun : s.tm.waitFinishRound t id = some (some exitCode, tm)) :
    HandOver { s with tm := tm, waits := Function.update s.waits t none,
                      returned := (id, exitCode) :: s.returned } := by
  have hsound := h.sound.step (.waitReturn t id exitCode tm hcur hwaits hrun)
  obtain ⟨hcode, rfl⟩ := waitFinishRound_some hrun
  have hcases : ∀ w id', Function.update s.waits t none w = some id' →
      s.waits w = some id' ∧ id' ≠ id := by
    intro w id' hw
    by_cases hwt : w = t
    · rw [hwt, Function.update_self] at hw
      cases hw
    · rw [Function.update_of_ne hwt] at hw
      refine ⟨hw, ?_⟩
      rintro rfl
      exact hwt (h.single w t id' hw hwaits)
  have hnot : id ∉ s.returned.map Prod.fst := by
    intro hret
    obtain ⟨⟨id', code'⟩, hmem, rfl⟩ := List.mem_map.mp hret
    exact (h.returned id' code' hmem).2.2 t hwaits
  refine ⟨hsound, ?_, h.gone, ?_, ?_, ?_, ?_, ?_, List.nodup_cons.mpr ⟨hnot, h.once⟩⟩
  · intro id' code hfin
    replace hfin : Function.update s.tm.finishTasks id none id' = some code := hfin
    by_cases hid : id' = id
    · rw [hid, Function.update_self] at hfin
      cases hfin
    · rw [Function.update_of_ne hid] at hfin
      exact h.finished id' code hfin
  · intro id' code hfin
    by_cases hid : id' = id
    · exact .inr (hid ▸ List.mem_cons_self)
    · rcases h.kept id' code hfin with hkept | hret
      · exact .inl ((Function.update_of_ne hid ..).trans hkept)
      · exact .inr (List.mem_cons_of_mem _ hret)
  · exact fun w id' hw => h.waits w id' (hcases w id' hw).1
  · exact fun w w' id' hw hw' => h.single w w' id' (hcases w id' hw).1 (hcases w' id' hw').1
  · exact fun w id' hw hasleep => h.registered w id' (hcases w id' hw).1 hasleep
  · intro id' code hmem
    rcases List.mem_cons.mp hmem with heq | hmem
    · cases heq
      exact ⟨h.finished id exitCode hcode, (h.waits t id hwaits).1,
        fun w hw => (hcases w id hw).2 rfl⟩
    · obtain ⟨hfin, hwaited, hnone⟩ := h.returned id' code hmem
      exact ⟨hfin, hwaited, fun w hw => hnone w (hcases w id' hw).1⟩

theorem HandOver.waitSleep (h : s.HandOver) {t id : Nat} {tm : TaskManager}
    (hcur : s.tm.currentTask = some t) (hidle : t ≠ idleId) (hwaits : s.waits t = some id)
    (hrun : s.tm.waitFinishRound t id = some (none, tm)) : HandOver { s with tm := tm } := by
  have hsound := h.sound.step (.waitSleep t id tm hcur hidle hwaits hrun)
  obtain ⟨-, hsleep⟩ := waitFinishRound_none hrun
  obtain ⟨tm₁, heq, -, hk⟩ :=
    (h.sound.tm.setWaiter id (h.sound.current_mem hcur)).sleep hidle
  obtain rfl : tm₁ = tm := Option.some.inj (heq.symm.trans hsleep)
  have htask := sleep_task hsleep
  have hlast := (sleep_ids hsleep).1
  replace hlast : tm₁.lastId = s.tm.lastId := hlast
  have htasks : tm₁.tasks = s.tm.tasks := hk.tasks
  refine ⟨hsound, ?_, ?_, ?_, ?_, h.single, ?_, h.returned, h.once⟩
  · intro id' code hcode
    exact h.finished id' code ((congrFun hk.finishTasks id').symm.trans hcode)
  · intro id' code hcode
    show id' ∉ tm₁.tasks ∧ id' ≤ tm₁.lastId
    rw [htasks, hlast]
    exact h.gone id' code hcode
  · intro id' code hcode
    show tm₁.finishTasks id' = some code ∨ _
    rw [hk.finishTasks]
    exact h.kept id' code hcode
  · intro w id' hw
    show _ ∧ w ∈ tm₁.tasks
    rw [htasks]
    exact h.waits w id' hw
  · intro w id' hw hasleep
    show tm₁.finishWaiter id' = some w
    rw [hk.finishWaiter]
    by_cases hwt : w = t
    · subst hwt
      rw [hwaits] at hw
      cases hw
      exact setWaiter_self ..
    · -- another waiter waits for another id, and its flag is as it was
      have hid : id' ≠ id := by
        rintro rfl
        exact hwt (h.single w t id' hw hwaits)
      rw [setWaiter_of_ne _ _ hid]
      apply h.registered w id' hw
      rw [htask, Function.update_of_ne hwt] at hasleep
      exact hasleep

theorem HandOver.finish (h : s.HandOver) {t : Nat} {exitCode : Int} {tm : TaskManager}
    (hcur : s.tm.currentTask = some t) (hidle : t ≠ idleId) (hwaits : s.waits t = none)
    (hrun : s.tm.finish exitCode = some tm) :
    HandOver { s with tm := tm, exitCodes := Function.update s.exitCodes t (some exitCode) } := by
  have hsound := h.sound.step (.finish t exitCode tm hcur hidle hwaits hrun)
  obtain ⟨-, htasks, hcodes, hwaiters⟩ := h.sound.finish_spec hcur hidle hwaits hrun
  have hlive := h.sound.current_mem hcur
  have hnodup := h.sound.tm.queued.tasks_nodup
  have hlast := (finish_ids hcur hrun).1
  -- the running task has not finished before
  have hfirst : ∀ code, s.exitCodes t ≠ some code := fun code hcode =>
    (h.gone t code hcode).1 hlive
  refine ⟨hsound, ?_, ?_, ?_, ?_, h.single, ?_, ?_, h.once⟩
  · intro id code hfin
    replace hfin : tm.finishTasks id = some code := hfin
    show Function.update s.exitCodes t (some exitCode) id = some code
    rw [hcodes] at hfin
    by_cases hid : id = t
    · rw [hid, Function.update_self] at hfin ⊢
      exact hfin
    · rw [Function.update_of_ne hid] at hfin ⊢
      exact h.finished id code hfin
  · intro id code hcode
    show id ∉ tm.tasks ∧ id ≤ tm.lastId
    rw [htasks, hlast]
    by_cases hid : id = t
    · rw [hid]
      exact ⟨fun hin => (hnodup.mem_erase_iff.mp hin).1 rfl, h.sound.tm.queued.tasks_le t hlive⟩
    · obtain ⟨hgone, hle⟩ := h.gone id code ((Function.update_of_ne hid ..).symm.trans hcode)
      exact ⟨fun hin => hgone (hnodup.mem_erase_iff.mp hin).2, hle⟩
  · intro id code hcode
    show tm.finishTasks id = some code ∨ _
    replace hcode : Function.update s.exitCodes t (some exitCode) id = some code := hcode
    rw [hcodes]
    by_cases hid : id = t
    · rw [hid, Function.update_self] at hcode ⊢
      exact .inl hcode
    · rw [Function.update_of_ne hid] at hcode ⊢
      exact h.kept id code hcode
  · intro w id hw
    obtain ⟨hwaited, hwlive⟩ := h.waits w id hw
    refine ⟨hwaited, ?_⟩
    show w ∈ tm.tasks
    rw [htasks]
    refine hnodup.mem_erase_iff.mpr ⟨?_, hwlive⟩
    rintro rfl
    rw [hwaits] at hw
    cases hw
  · intro w id hw hasleep
    show tm.finishWaiter id = some w
    replace hasleep : (tm.task w).readyOrRunning = false := hasleep
    have htask := finish_task hcur hrun
    -- the wake-up of the registered task sets flags only
    have hbefore : (s.tm.task w).readyOrRunning = false ∧ s.tm.finishWaiter t ≠ some w := by
      rw [htask] at hasleep
      cases hreg : s.tm.finishWaiter t with
      | none =>
        rw [hreg] at hasleep
        exact ⟨hasleep, nofun⟩
      | some w₀ =>
        rw [hreg] at hasleep
        dsimp only at hasleep
        by_cases hwake : w = w₀
        · rw [hwake, Function.update_self] at hasleep
          cases hasleep
        · rw [Function.update_of_ne hwake] at hasleep
          exact ⟨hasleep, fun he => hwake (Option.some.inj he).symm⟩
    have hreg := h.registered w id hw hbefore.1
    have hid : id ≠ t := by
      rintro rfl
      exact hbefore.2 hreg
    rw [hwaiters, Function.update_of_ne hid]
    exact hreg
  · intro id code hmem
    obtain ⟨hcode, hrest⟩ := h.returned id code hmem
    have hid : id ≠ t := by
      rintro rfl
      exact hfirst code hcode
    exact ⟨(Function.update_of_ne hid ..).trans hcode, hrest⟩

theorem HandOver.step (h : s.HandOver) (hguard : s.HandOverGuard event)
    (hstep : TaskStep s event s') : s'.HandOver := by
  have hsound := h.sound.step hstep
  cases hstep with
  | call c tm hfin hallowed hrun => exact h.call hguard hfin hallowed hrun
  | receive t msg tm hcur hwaits hrun =>
    obtain ⟨msgs, -, rfl⟩ := taskReceiveMessage_some hrun
    apply h.keep hsound rfl rfl (fun _ ht => ht) (fun _ ht => .inl ht) (Nat.le_refl _)
    intro w id _ hr
    show (Function.update s.tm.task t _ w).readyOrRunning = true
    by_cases hwt : w = t
    · rw [hwt, Function.update_self]
      exact hwt ▸ hr
    · rw [Function.update_of_ne hwt]
      exact hr
  | receiveSleep t tm tm' hcur hidle hwaits hrun hsleep =>
    obtain ⟨-, rfl⟩ := taskReceiveMessage_none hrun
    obtain ⟨tm₁, heq, -, hk⟩ := h.sound.tm.sleep hidle
    obtain rfl : tm₁ = tm' := Option.some.inj (heq.symm.trans hsleep)
    apply h.keep hsound hk.finishTasks hk.finishWaiter
    · exact fun u hu => hk.tasks ▸ hu
    · exact fun u hu => .inl (hk.tasks ▸ hu)
    · exact Nat.le_of_eq (sleep_ids hsleep).1.symm
    · -- the task that goes to sleep is in no `WaitFinish`
      intro w id hw hr
      have hwt : w ≠ t := by
        rintro rfl
        rw [hwaits] at hw
        cases hw
      rw [sleep_task hsleep, Function.update_of_ne hwt]
      exact hr
  | waitFinish t id hcur hidle hwaits => exact h.startWait hcur hidle hwaits hguard
  | waitReturn t id exitCode tm hcur hwaits hrun => exact h.waitReturn hcur hwaits hrun
  | waitSleep t id tm hcur hidle hwaits hrun => exact h.waitSleep hcur hidle hwaits hrun
  | finish t exitCode tm hcur hidle hwaits hrun => exact h.finish hcur hidle hwaits hrun

theorem HandOver.init : TaskRun.init.HandOver := by
  have hwaits : ∀ w id, TaskRun.init.waits w ≠ some id := nofun
  refine ⟨Sound.init, nofun, nofun, nofun, fun w id hw => absurd hw (hwaits w id),
    fun w _ id hw => absurd hw (hwaits w id), fun w id hw => absurd hw (hwaits w id), ?_, List.nodup_nil⟩
  exact fun _ _ hmem => absurd hmem List.not_mem_nil

theorem HandOver.of_reachable (h : Reachable (· = .init) (GuardedStep TaskStep HandOverGuard) s) :
    s.HandOver := by
  refine h.invariant ?_ ?_
  · rintro _ rfl
    exact HandOver.init
  · rintro s s' hi ⟨event, hguard, hstep⟩
    exact hi.step hguard hstep

end TaskRun

open TaskRun

end MikanSaos
