import MikanSaos.Task.TaskManager
import MikanSaos.Reasoning.Reach
import Mathlib.Data.List.Nodup
import Mathlib.Data.List.Count

/-!
# Run queues — the scheduler never loses a task and never runs one twice

`Queued` ties the four queues to the flags and levels of the living tasks.  The operations move tasks
in four ways only: rotate a queue, take a task out of its queue, put one in, and choose the level to
run from; each way has its lemma here, and every operation is a composition of them.
-/

open Reasoning

namespace MikanSaos

namespace TaskManager

section Fields

variable (tm : TaskManager) (t u lv : Nat) (tk : Task) (q : List Nat)

@[simp] theorem setTask_tasks : (tm.setTask t tk).tasks = tm.tasks := rfl
@[simp] theorem setTask_running : (tm.setTask t tk).running = tm.running := rfl
@[simp] theorem setTask_currentLevel : (tm.setTask t tk).currentLevel = tm.currentLevel := rfl
@[simp] theorem setTask_levelChanged : (tm.setTask t tk).levelChanged = tm.levelChanged := rfl
@[simp] theorem setTask_lastId : (tm.setTask t tk).lastId = tm.lastId := rfl
@[simp] theorem setTask_finishWaiter : (tm.setTask t tk).finishWaiter = tm.finishWaiter := rfl
@[simp] theorem setTask_finishTasks : (tm.setTask t tk).finishTasks = tm.finishTasks := rfl
@[simp] theorem setTask_self : (tm.setTask t tk).task t = tk := Function.update_self ..
theorem setTask_of_ne (h : u ≠ t) : (tm.setTask t tk).task u = tm.task u :=
  Function.update_of_ne h ..

@[simp] theorem setQueue_tasks : (tm.setQueue lv q).tasks = tm.tasks := rfl
@[simp] theorem setQueue_task : (tm.setQueue lv q).task = tm.task := rfl
@[simp] theorem setQueue_currentLevel : (tm.setQueue lv q).currentLevel = tm.currentLevel := rfl
@[simp] theorem setQueue_levelChanged : (tm.setQueue lv q).levelChanged = tm.levelChanged := rfl
@[simp] theorem setQueue_lastId : (tm.setQueue lv q).lastId = tm.lastId := rfl
@[simp] theorem setQueue_finishWaiter : (tm.setQueue lv q).finishWaiter = tm.finishWaiter := rfl
@[simp] theorem setQueue_self : (tm.setQueue lv q).running lv = q := Function.update_self ..
theorem setQueue_of_ne {k : Nat} (h : k ≠ lv) : (tm.setQueue lv q).running k = tm.running k :=
  Function.update_of_ne h ..

end Fields

/-- The queues, the flags and the levels of the living tasks agree. -/
structure Queued (tm : TaskManager) : Prop where
  tasks_nodup : tm.tasks.Nodup
  tasks_le : ∀ t ∈ tm.tasks, t ≤ tm.lastId
  level_le : ∀ t ∈ tm.tasks, (tm.task t).level ≤ kMaxLevel
  queued : ∀ lv ≤ kMaxLevel, ∀ t ∈ tm.running lv,
    t ∈ tm.tasks ∧ (tm.task t).level = lv ∧ (tm.task t).readyOrRunning = true
  ready : ∀ t ∈ tm.tasks, (tm.task t).readyOrRunning = true → t ∈ tm.running (tm.task t).level
  nodup : ∀ lv ≤ kMaxLevel, (tm.running lv).Nodup
  current_le : tm.currentLevel ≤ kMaxLevel
  idle : idleId ∈ tm.tasks ∧ (tm.task idleId).readyOrRunning = true
  waiter : ∀ id w, tm.finishWaiter id = some w → w ∈ tm.tasks

/-- Some task can run at the current level. -/
def Selected (tm : TaskManager) : Prop := tm.running tm.currentLevel ≠ []

theorem Selected.exists_current {tm : TaskManager} (h : tm.Selected) :
    ∃ t rest, tm.running tm.currentLevel = t :: rest := by
  cases hq : tm.running tm.currentLevel with
  | nil => exact absurd hq h
  | cons t rest => exact ⟨t, rest, rfl⟩

/-- The idle task is always queued. -/
theorem Queued.exists_queue {tm : TaskManager} (h : tm.Queued) :
    ∃ lv ≤ kMaxLevel, tm.running lv ≠ [] :=
  ⟨_, h.level_le idleId h.idle.1, List.ne_nil_of_mem (h.ready idleId h.idle.1 h.idle.2)⟩

/-- Only the view of the scheduler matters: who lives, levels, flags and queues up to order. -/
theorem Queued.congr {tm tm' : TaskManager} (h : tm.Queued) (htasks : tm'.tasks = tm.tasks)
    (hlast : tm'.lastId = tm.lastId)
    (hlevel : ∀ t ∈ tm.tasks, (tm'.task t).level = (tm.task t).level)
    (hready : ∀ t ∈ tm.tasks, (tm'.task t).readyOrRunning = (tm.task t).readyOrRunning)
    (hqueue : ∀ lv ≤ kMaxLevel, (tm'.running lv).Perm (tm.running lv))
    (hcurrent : tm'.currentLevel ≤ kMaxLevel)
    (hwaiter : ∀ id w, tm'.finishWaiter id = some w → w ∈ tm.tasks) : tm'.Queued := by
  refine ⟨htasks ▸ h.tasks_nodup, ?_, ?_, ?_, ?_, ?_, hcurrent, ?_, ?_⟩
  · rw [htasks, hlast]
    exact h.tasks_le
  · intro t ht
    rw [htasks] at ht
    rw [hlevel t ht]
    exact h.level_le t ht
  · intro lv hlv t ht
    obtain ⟨hmem, hl, hr⟩ := h.queued lv hlv t ((hqueue lv hlv).mem_iff.mp ht)
    rw [htasks, hlevel t hmem, hready t hmem]
    exact ⟨hmem, hl, hr⟩
  · intro t ht hr
    rw [htasks] at ht
    rw [hready t ht] at hr
    rw [hlevel t ht]
    exact (hqueue _ (h.level_le t ht)).mem_iff.mpr (h.ready t ht hr)
  · exact fun lv hlv => (hqueue lv hlv).nodup_iff.mpr (h.nodup lv hlv)
  · rw [htasks, hready _ h.idle.1]
    exact h.idle
  · rw [htasks]
    exact hwaiter

/-! ## Choosing the level -/

theorem highestLevel_spec (running : Nat → List Nat) (n : Nat) (h : ∃ lv ≤ n, running lv ≠ []) :
    ∃ lv, highestLevel running n = some lv ∧ lv ≤ n ∧ running lv ≠ [] ∧
      ∀ k, lv < k → k ≤ n → running k = [] := by
  obtain ⟨m, hm, hqueue⟩ := h
  induction n with
  | zero =>
    obtain rfl : m = 0 := Nat.le_zero.mp hm
    exact ⟨0, by simp [highestLevel, hqueue], Nat.le_refl _, hqueue, fun k h1 h2 => by omega⟩
  | succ n ih =>
    by_cases htop : running (n + 1) = []
    · have hlow : m ≠ n + 1 := by
        rintro rfl
        exact hqueue htop
      obtain ⟨lv, heq, hle, hne, habove⟩ := ih (by omega)
      refine ⟨lv, by simp [highestLevel, htop, heq], by omega, hne, fun k hk hkn => ?_⟩
      by_cases hlast : k = n + 1
      · exact hlast ▸ htop
      · exact habove k hk (by omega)
    · exact ⟨n + 1, by simp [highestLevel, htop], Nat.le_refl _, htop, fun k h1 h2 => by omega⟩

/-- `reselectLevel` changes the level and the flag only. -/
theorem reselectLevel_eq (tm : TaskManager) :
    ∃ lv changed, tm.reselectLevel = { tm with currentLevel := lv, levelChanged := changed } := by
  unfold reselectLevel
  dsimp only
  split <;> exact ⟨_, _, rfl⟩

theorem Queued.reselectLevel {tm : TaskManager} (h : tm.Queued) :
    tm.reselectLevel.Queued ∧ tm.reselectLevel.Selected := by
  obtain ⟨lv, hlv, hle, hne, -⟩ := highestLevel_spec tm.running kMaxLevel h.exists_queue
  unfold TaskManager.reselectLevel
  dsimp only
  split
  · rw [hlv, Option.getD_some]
    exact ⟨⟨h.tasks_nodup, h.tasks_le, h.level_le, h.queued, h.ready, h.nodup, hle, h.idle,
      h.waiter⟩, hne⟩
  · rename_i hkeep
    refine ⟨⟨h.tasks_nodup, h.tasks_le, h.level_le, h.queued, h.ready, h.nodup, h.current_le,
      h.idle, h.waiter⟩, ?_⟩
    intro hempty
    simp only at hempty
    simp [hempty] at hkeep

/-! ## Taking a task out of its queue, and putting one in -/

/-- The queues without task `t`, which is not ready any more. -/
def park (tm : TaskManager) (t : Nat) : TaskManager :=
  (tm.setReadyOrRunning t false).eraseFrom (tm.task t).level t

theorem mem_park_running {tm : TaskManager} (h : tm.Queued) {t u lv : Nat} (hlv : lv ≤ kMaxLevel) :
    u ∈ (tm.park t).running lv ↔ u ∈ tm.running lv ∧ u ≠ t := by
  unfold park eraseFrom setReadyOrRunning
  by_cases hl : lv = (tm.task t).level
  · subst hl
    rw [setQueue_self, setTask_running, List.mem_filter, decide_eq_true_eq]
  · rw [setQueue_of_ne _ _ _ hl, setTask_running]
    refine ⟨fun hu => ⟨hu, ?_⟩, And.left⟩
    rintro rfl
    exact hl (h.queued lv hlv u hu).2.1.symm

theorem Queued.park {tm : TaskManager} (h : tm.Queued) {t : Nat} (hidle : t ≠ idleId) :
    (tm.park t).Queued := by
  have htask : ∀ u, u ≠ t → (tm.park t).task u = tm.task u := fun u hu => setTask_of_ne _ _ _ _ hu
  have hself : (tm.park t).task t = { tm.task t with readyOrRunning := false } := setTask_self ..
  have hlevel : ∀ u, ((tm.park t).task u).level = (tm.task u).level := by
    intro u
    by_cases hu : u = t
    · rw [hu, hself]
    · rw [htask u hu]
  refine ⟨h.tasks_nodup, h.tasks_le, fun u hu => hlevel u ▸ h.level_le u hu, ?_, ?_, ?_,
    h.current_le, ⟨h.idle.1, ?_⟩, h.waiter⟩
  · intro lv hlv u hu
    obtain ⟨hin, hne⟩ := (mem_park_running h hlv).mp hu
    rw [htask u hne]
    exact h.queued lv hlv u hin
  · intro u hu hr
    have hne : u ≠ t := by
      rintro rfl
      rw [hself] at hr
      cases hr
    rw [htask u hne] at hr ⊢
    exact (mem_park_running h (h.level_le u hu)).mpr ⟨h.ready u hu hr, hne⟩
  · intro lv hlv
    unfold TaskManager.park eraseFrom setReadyOrRunning
    by_cases hl : lv = (tm.task t).level
    · rw [hl, setQueue_self]
      exact (h.nodup _ (hl ▸ hlv)).filter _
    · rw [setQueue_of_ne _ _ _ hl]
      exact h.nodup lv hlv
  · rw [htask idleId hidle.symm]
    exact h.idle.2

/-- The front of the current queue, taken out by a rotation, leaves the queue `park` leaves. -/
theorem Queued.filter_front {tm : TaskManager} (h : tm.Queued) {t : Nat} {rest : List Nat}
    (hfront : tm.running tm.currentLevel = t :: rest) :
    rest = (tm.running tm.currentLevel).filter (· ≠ t) ∧ (tm.task t).level = tm.currentLevel ∧
      t ∈ tm.tasks := by
  have hnodup := h.nodup _ h.current_le
  rw [hfront, List.nodup_cons] at hnodup
  have hq := h.queued _ h.current_le t (by rw [hfront]; exact List.mem_cons_self)
  refine ⟨?_, hq.2.1, hq.1⟩
  rw [hfront, List.filter_cons_of_neg (by simp)]
  symm
  rw [List.filter_eq_self]
  intro u hu
  rw [decide_eq_true_eq]
  rintro rfl
  exact hnodup.1 hu

/-- A task is in no queue but that of its level. -/
theorem Queued.filter_eq_self {tm : TaskManager} (h : tm.Queued) {t lv : Nat} (hlv : lv ≤ kMaxLevel)
    (ht : (tm.task t).readyOrRunning = false ∨ (tm.task t).level ≠ lv) :
    (tm.running lv).filter (· ≠ t) = tm.running lv := by
  apply List.filter_eq_self.mpr
  intro u hu
  rw [decide_eq_true_eq]
  rintro rfl
  obtain ⟨-, hl, hr⟩ := h.queued lv hlv u hu
  rcases ht with hf | hne
  · rw [hr] at hf
    cases hf
  · exact hne hl

/-- A living task put into the queue of a level, and taken out of the one it was in. -/
theorem Queued.move {tm tm' : TaskManager} (h : tm.Queued) {t lv : Nat} (ht : t ∈ tm.tasks)
    (hlv : lv ≤ kMaxLevel) (htasks : tm'.tasks = tm.tasks) (hlast : tm'.lastId = tm.lastId)
    (hwaiter : tm'.finishWaiter = tm.finishWaiter) (hcurrent : tm'.currentLevel ≤ kMaxLevel)
    (hself : (tm'.task t).level = lv ∧ (tm'.task t).readyOrRunning = true)
    (hother : ∀ u, u ≠ t → tm'.task u = tm.task u)
    (hqueue : ∀ k ≤ kMaxLevel, (tm'.running k).Perm
      ((if k = lv then [t] else []) ++ (tm.running k).filter (· ≠ t))) : tm'.Queued := by
  have hmem : ∀ k ≤ kMaxLevel, ∀ u, u ∈ tm'.running k ↔
      (k = lv ∧ u = t) ∨ (u ∈ tm.running k ∧ u ≠ t) := by
    intro k hk u
    rw [(hqueue k hk).mem_iff, List.mem_append, List.mem_ite_nil_right, List.mem_singleton,
      List.mem_filter, decide_eq_true_eq]
  refine ⟨htasks ▸ h.tasks_nodup, ?_, ?_, ?_, ?_, ?_, hcurrent, ?_, ?_⟩
  · rw [htasks, hlast]
    exact h.tasks_le
  · intro u hu
    by_cases hut : u = t
    · rw [hut, hself.1]
      exact hlv
    · rw [hother u hut]
      exact h.level_le u (htasks ▸ hu)
  · intro k hk u hu
    rcases (hmem k hk u).mp hu with ⟨rfl, rfl⟩ | ⟨hin, hne⟩
    · exact ⟨htasks ▸ ht, hself⟩
    · rw [hother u hne, htasks]
      exact h.queued k hk u hin
  · intro u hu hr
    by_cases hut : u = t
    · rw [hut, hself.1]
      exact (hmem lv hlv t).mpr (.inl ⟨rfl, rfl⟩)
    · rw [hother u hut] at hr ⊢
      have hlive : u ∈ tm.tasks := htasks ▸ hu
      exact (hmem _ (h.level_le u hlive) u).mpr (.inr ⟨h.ready u hlive hr, hut⟩)
  · intro k hk
    rw [(hqueue k hk).nodup_iff]
    have hrest := (h.nodup k hk).filter (· ≠ t)
    split
    · exact List.nodup_cons.mpr ⟨by simp, hrest⟩
    · exact hrest
  · by_cases hut : idleId = t
    · exact ⟨htasks ▸ h.idle.1, hut ▸ hself.2⟩
    · rw [htasks, hother idleId hut]
      exact h.idle
  · rw [htasks, hwaiter]
    exact h.waiter

/-- A living task put at the end of the queue of its level. -/
theorem Queued.enqueue {tm : TaskManager} (h : tm.Queued) {t lv : Nat} (ht : t ∈ tm.tasks)
    (hlv : lv ≤ kMaxLevel) (hparked : (tm.task t).readyOrRunning = false) :
    (((tm.setLevel t lv).setReadyOrRunning t true).setQueue lv (tm.running lv ++ [t])).Queued := by
  apply h.move ht hlv
  · rfl
  · rfl
  · rfl
  · exact h.current_le
  · simp [setReadyOrRunning, setLevel]
  · intro u hu
    rw [setQueue_task, setReadyOrRunning, setTask_of_ne _ _ _ _ hu, setLevel,
      setTask_of_ne _ _ _ _ hu]
  · intro k hk
    rw [h.filter_eq_self hk (.inl hparked)]
    by_cases hkl : k = lv
    · rw [hkl, setQueue_self, if_pos rfl]
      exact List.perm_append_comm
    · rw [setQueue_of_ne _ _ _ hkl, if_neg hkl]
      rfl

/-- A task gone from the living ones and from its queue. -/
theorem Queued.retire {tm tm' : TaskManager} (h : tm.Queued) {t : Nat} (hidle : t ≠ idleId)
    (htasks : tm'.tasks = tm.tasks.erase t) (hlast : tm'.lastId = tm.lastId)
    (htask : tm'.task = tm.task)
    (hqueue : ∀ lv ≤ kMaxLevel, tm'.running lv = (tm.running lv).filter (· ≠ t))
    (hcurrent : tm'.currentLevel ≤ kMaxLevel)
    (hwaiter : ∀ id w, tm'.finishWaiter id = some w → w ∈ tm.tasks ∧ w ≠ t) : tm'.Queued := by
  have hmem : ∀ u, u ∈ tm'.tasks ↔ u ≠ t ∧ u ∈ tm.tasks := by
    intro u
    rw [htasks]
    exact h.tasks_nodup.mem_erase_iff
  have hrun : ∀ lv ≤ kMaxLevel, ∀ u, u ∈ tm'.running lv ↔ u ∈ tm.running lv ∧ u ≠ t := by
    intro lv hlv u
    rw [hqueue lv hlv, List.mem_filter, decide_eq_true_eq]
  refine ⟨htasks ▸ h.tasks_nodup.erase t, ?_, ?_, ?_, ?_, ?_, hcurrent, ?_, ?_⟩
  · intro u hu
    rw [hlast]
    exact h.tasks_le u ((hmem u).mp hu).2
  · intro u hu
    rw [htask]
    exact h.level_le u ((hmem u).mp hu).2
  · intro lv hlv u hu
    obtain ⟨hin, hne⟩ := (hrun lv hlv u).mp hu
    obtain ⟨hlive, hl, hr⟩ := h.queued lv hlv u hin
    rw [htask]
    exact ⟨(hmem u).mpr ⟨hne, hlive⟩, hl, hr⟩
  · intro u hu hr
    obtain ⟨hne, hlive⟩ := (hmem u).mp hu
    rw [htask] at hr ⊢
    exact (hrun _ (h.level_le u hlive) u).mpr ⟨h.ready u hlive hr, hne⟩
  · intro lv hlv
    rw [hqueue lv hlv]
    exact (h.nodup lv hlv).filter _
  · exact ⟨(hmem _).mpr ⟨hidle.symm, h.idle.1⟩, htask ▸ h.idle.2⟩
  · intro id w hw
    obtain ⟨hlive, hne⟩ := hwaiter id w hw
    exact (hmem w).mpr ⟨hne, hlive⟩

/-! ## The operations -/

/-- The scheduler is consistent and some task is running. -/
structure Sound (tm : TaskManager) : Prop where
  queued : tm.Queued
  selected : tm.Selected

/-- The same tasks live, have finished and are waited for. -/
structure Keeps (tm tm' : TaskManager) : Prop where
  tasks : tm'.tasks = tm.tasks
  finishTasks : tm'.finishTasks = tm.finishTasks
  finishWaiter : tm'.finishWaiter = tm.finishWaiter

theorem Keeps.refl (tm : TaskManager) : Keeps tm tm := ⟨rfl, rfl, rfl⟩

theorem Keeps.trans {tm₁ tm₂ tm₃ : TaskManager} (h : Keeps tm₁ tm₂) (h' : Keeps tm₂ tm₃) :
    Keeps tm₁ tm₃ :=
  ⟨h'.tasks.trans h.tasks, h'.finishTasks.trans h.finishTasks,
    h'.finishWaiter.trans h.finishWaiter⟩

theorem keeps_reselectLevel (tm : TaskManager) : Keeps tm tm.reselectLevel := by
  obtain ⟨_, _, h⟩ := tm.reselectLevel_eq
  rw [h]
  exact ⟨rfl, rfl, rfl⟩

theorem Queued.sound_reselect {tm : TaskManager} (h : tm.Queued) : tm.reselectLevel.Sound :=
  ⟨h.reselectLevel.1, h.reselectLevel.2⟩

theorem Sound.exists_currentTask {tm : TaskManager} (h : tm.Sound) :
    ∃ t ∈ tm.tasks, tm.currentTask = some t := by
  obtain ⟨t, rest, hfront⟩ := h.selected.exists_current
  have hin : t ∈ tm.running tm.currentLevel := by
    rw [hfront]
    exact List.mem_cons_self
  exact ⟨t, (h.queued.queued _ h.queued.current_le t hin).1, by rw [currentTask, hfront]; rfl⟩

theorem Sound.newTask {tm : TaskManager} (h : tm.Sound) : tm.newTask.2.Sound := by
  have hq := h.queued
  have hfresh : tm.lastId + 1 ∉ tm.tasks := fun hin => by
    have := hq.tasks_le _ hin
    omega
  have hother : ∀ t ∈ tm.tasks, tm.newTask.2.task t = tm.task t := by
    intro t ht
    exact Function.update_of_ne (by rintro rfl; exact hfresh ht) _ _
  have hself : tm.newTask.2.task (tm.lastId + 1) = {} := Function.update_self ..
  refine ⟨⟨?_, ?_, ?_, ?_, ?_, hq.nodup, hq.current_le, ?_, ?_⟩, h.selected⟩
  · exact List.nodup_append.mpr ⟨hq.tasks_nodup, List.nodup_singleton _, fun a ha b hb => by
      rw [List.mem_singleton.mp hb]
      rintro rfl
      exact hfresh ha⟩
  · intro t ht
    rcases List.mem_append.mp ht with ht | ht
    · exact Nat.le_succ_of_le (hq.tasks_le t ht)
    · exact Nat.le_of_eq (List.mem_singleton.mp ht)
  · intro t ht
    rcases List.mem_append.mp ht with ht | ht
    · rw [hother t ht]
      exact hq.level_le t ht
    · rw [List.mem_singleton.mp ht, hself]
      decide
  · intro lv hlv t ht
    obtain ⟨hlive, hl, hr⟩ := hq.queued lv hlv t ht
    rw [hother t hlive]
    exact ⟨List.mem_append_left _ hlive, hl, hr⟩
  · intro t ht hr
    rcases List.mem_append.mp ht with ht | ht
    · rw [hother t ht] at hr ⊢
      exact hq.ready t ht hr
    · rw [List.mem_singleton.mp ht, hself] at hr
      cases hr
  · rw [hother idleId hq.idle.1]
    exact ⟨List.mem_append_left _ hq.idle.1, hq.idle.2⟩
  · exact fun id w hw => List.mem_append_left _ (hq.waiter id w hw)

theorem rotate_eq {tm : TaskManager} {t : Nat} {rest : List Nat}
    (hfront : tm.running tm.currentLevel = t :: rest) (currentSleep : Bool) :
    tm.rotateCurrentRunQueue currentSleep = some (t, (tm.setQueue tm.currentLevel
      (if currentSleep then rest else rest ++ [t])).reselectLevel) := by
  rw [rotateCurrentRunQueue, hfront]

theorem Sound.switchTask {tm : TaskManager} (h : tm.Sound) :
    ∃ tm', tm.switchTask = some tm' ∧ tm'.Sound ∧ Keeps tm tm' := by
  obtain ⟨t, rest, hfront⟩ := h.selected.exists_current
  have hrotated : (tm.setQueue tm.currentLevel (rest ++ [t])).Queued := by
    refine h.queued.congr rfl rfl (fun _ _ => rfl) (fun _ _ => rfl) ?_ h.queued.current_le
      h.queued.waiter
    intro lv _
    by_cases hlv : lv = tm.currentLevel
    · rw [hlv, setQueue_self, hfront]
      exact List.perm_append_singleton t rest
    · rw [setQueue_of_ne _ _ _ hlv]
  have hk := keeps_reselectLevel (tm.setQueue tm.currentLevel (rest ++ [t]))
  rw [TaskManager.switchTask, rotate_eq hfront]
  exact ⟨_, rfl, hrotated.sound_reselect, hk.tasks, hk.finishTasks, hk.finishWaiter⟩

/-- `Sleep` of a ready task takes it out of its queue; if it is the running task, the level to run
from is chosen anew. -/
theorem Sound.sleep_eq {tm : TaskManager} (h : tm.Sound) {t : Nat}
    (hr : (tm.task t).readyOrRunning = true) :
    tm.sleep t = some (if tm.currentTask = some t then (tm.park t).reselectLevel else tm.park t) := by
  obtain ⟨front, rest, hfront⟩ := h.selected.exists_current
  have hcur : tm.currentTask = some front := by rw [currentTask, hfront]; rfl
  have hcur' : (tm.setReadyOrRunning t false).currentTask = some front := hcur
  have hlevel : ((tm.setReadyOrRunning t false).task t).level = (tm.task t).level := by
    rw [setReadyOrRunning, setTask_self]
  rw [TaskManager.sleep, if_pos hr]
  dsimp only
  rw [hcur', hcur]
  by_cases ht : t = front
  · subst ht
    obtain ⟨hrest, hl, -⟩ := h.queued.filter_front hfront
    have hfront' : (tm.setReadyOrRunning t false).running
        (tm.setReadyOrRunning t false).currentLevel = t :: rest := hfront
    dsimp only
    rw [if_pos rfl, if_pos rfl, rotate_eq hfront', Option.map_some]
    rw [park, eraseFrom, hl, setReadyOrRunning, setTask_running, ← hrest]
    rfl
  · have hne : ¬ some front = some t := fun he => ht (Option.some.inj he).symm
    dsimp only
    rw [if_neg ht, if_neg hne, hlevel]
    rfl

theorem Sound.sleep {tm : TaskManager} (h : tm.Sound) {t : Nat} (hidle : t ≠ idleId) :
    ∃ tm', tm.sleep t = some tm' ∧ tm'.Sound ∧ Keeps tm tm' := by
  by_cases hr : (tm.task t).readyOrRunning = true
  · have hparked := h.queued.park hidle
    have hk := keeps_reselectLevel (tm.park t)
    rw [h.sleep_eq hr]
    refine ⟨_, rfl, ?_⟩
    split
    · exact ⟨hparked.sound_reselect, hk.tasks, hk.finishTasks, hk.finishWaiter⟩
    · -- the front of the current queue is another task, so the queue does not run empty
      rename_i hne
      obtain ⟨front, rest, hfront⟩ := h.selected.exists_current
      have hin : front ∈ tm.running tm.currentLevel := by rw [hfront]; exact List.mem_cons_self
      have hother : front ≠ t := by
        rintro rfl
        exact hne (by rw [currentTask, hfront]; rfl)
      exact ⟨⟨hparked, List.ne_nil_of_mem ((mem_park_running h.queued h.queued.current_le).mpr
        ⟨hin, hother⟩)⟩, rfl, rfl, rfl⟩
  · exact ⟨tm, by rw [TaskManager.sleep, if_neg hr], h, Keeps.refl tm⟩

/-- `Wakeup` of a task that is not ready puts it at the end of its queue, and asks for a new choice
of the level if that queue has priority. -/
theorem wakeup_parked {tm : TaskManager} {t : Nat} (hparked : (tm.task t).readyOrRunning = false) :
    ∃ changed, tm.wakeup t = some { (((tm.setLevel t (tm.task t).level).setReadyOrRunning t
      true).setQueue (tm.task t).level (tm.running (tm.task t).level ++ [t])) with
        levelChanged := changed } := by
  rw [TaskManager.wakeup, if_neg (by simp [hparked])]
  dsimp only
  rw [if_pos (show (-1 : Int) < 0 by decide)]
  split <;> exact ⟨_, rfl⟩

theorem Sound.wakeup {tm : TaskManager} (h : tm.Sound) {t : Nat} (ht : t ∈ tm.tasks) :
    ∃ tm', tm.wakeup t = some tm' ∧ tm'.Sound ∧ Keeps tm tm' := by
  by_cases hr : (tm.task t).readyOrRunning = true
  · refine ⟨tm, ?_, h, Keeps.refl tm⟩
    rw [TaskManager.wakeup, if_pos hr, changeLevelRunning, if_pos (Or.inl (by decide))]
  · have hparked : (tm.task t).readyOrRunning = false := by simpa using hr
    have hq := h.queued.enqueue ht (h.queued.level_le t ht) hparked
    obtain ⟨changed, hwake⟩ := wakeup_parked hparked
    refine ⟨_, hwake, ⟨⟨hq.tasks_nodup, hq.tasks_le, hq.level_le, hq.queued, hq.ready, hq.nodup,
      hq.current_le, hq.idle, hq.waiter⟩, ?_⟩, rfl, rfl, rfl⟩
    show (((tm.setLevel t (tm.task t).level).setReadyOrRunning t true).setQueue (tm.task t).level
      (tm.running (tm.task t).level ++ [t])).running tm.currentLevel ≠ []
    by_cases hl : tm.currentLevel = (tm.task t).level
    · rw [hl, setQueue_self]
      exact List.append_ne_nil_of_right_ne_nil _ (List.cons_ne_nil t [])
    · rw [setQueue_of_ne _ _ _ hl]
      exact h.selected

theorem Sound.setMsgs {tm : TaskManager} (h : tm.Sound) (t : Nat) (msgs : List Message) :
    (tm.setMsgs t msgs).Sound := by
  have hsame : ∀ u, ((tm.setMsgs t msgs).task u).level = (tm.task u).level ∧
      ((tm.setMsgs t msgs).task u).readyOrRunning = (tm.task u).readyOrRunning := by
    intro u
    unfold TaskManager.setMsgs
    by_cases hu : u = t
    · rw [hu, setTask_self]
      exact ⟨rfl, rfl⟩
    · rw [setTask_of_ne _ _ _ _ hu]
      exact ⟨rfl, rfl⟩
  exact ⟨h.queued.congr rfl rfl (fun u _ => (hsame u).1) (fun u _ => (hsame u).2)
    (fun _ _ => List.Perm.refl _) h.queued.current_le h.queued.waiter, h.selected⟩

theorem Sound.taskSendMessage {tm : TaskManager} (h : tm.Sound) {t : Nat} (ht : t ∈ tm.tasks)
    (msg : Message) :
    ∃ tm', tm.taskSendMessage t msg = some tm' ∧ tm'.Sound ∧ Keeps tm tm' := by
  obtain ⟨tm', heq, hs, hk⟩ := (h.setMsgs t ((tm.task t).msgs ++ [msg])).wakeup ht
  exact ⟨tm', heq, hs, hk.tasks, hk.finishTasks, hk.finishWaiter⟩

/-- An operation on living tasks, called with an id: it runs, or the id is unknown. -/
theorem Sound.withTaskId {tm : TaskManager} (h : tm.Sound) {op : Nat → Option TaskManager}
    (id : Nat) (hop : id ∈ tm.tasks → ∃ tm', op id = some tm' ∧ tm'.Sound ∧ Keeps tm tm') :
    ∃ err tm', tm.withTaskId id op = some (err, tm') ∧ tm'.Sound ∧ Keeps tm tm' := by
  unfold TaskManager.withTaskId
  cases hfind : tm.tasks.find? (· == id) with
  | none => exact ⟨_, _, rfl, h, Keeps.refl tm⟩
  | some t =>
    have hid : t = id := by simpa using List.find?_some hfind
    subst hid
    obtain ⟨tm', heq, hrest⟩ := hop (List.mem_of_find?_eq_some hfind)
    exact ⟨.kSuccess, tm', by simp only [heq, Option.map_some], hrest⟩

/-- The choice of the level looks at the queues only. -/
theorem reselectLevel_removeFinished (tm : TaskManager) (t : Nat) (exitCode : Int)
    (waiter : Option Nat) :
    (tm.reselectLevel.removeFinished t exitCode).setWaiter t waiter =
      ((tm.removeFinished t exitCode).setWaiter t waiter).reselectLevel := by
  unfold reselectLevel removeFinished setWaiter
  dsimp only
  split <;> rfl

/-- `Finish` as one removal followed by the choice of the level and the wake-up of the waiter. -/
theorem finish_eq {tm : TaskManager} {t : Nat} {rest : List Nat}
    (hfront : tm.running tm.currentLevel = t :: rest) (exitCode : Int) :
    tm.finish exitCode =
      (let gone := ((((tm.setQueue tm.currentLevel rest).removeFinished t exitCode).setWaiter t
        none).reselectLevel)
      match tm.finishWaiter t with
      | some waiter => gone.wakeup waiter
      | none => some gone) := by
  have hkeeps := keeps_reselectLevel (tm.setQueue tm.currentLevel rest)
  have hwaiter : ((tm.setQueue tm.currentLevel rest).reselectLevel.removeFinished t
      exitCode).finishWaiter t = tm.finishWaiter t := by
    rw [removeFinished, hkeeps.finishWaiter, setQueue_finishWaiter]
  rw [TaskManager.finish, rotate_eq hfront]
  dsimp only
  rw [if_pos rfl, hwaiter, ← reselectLevel_removeFinished]
  cases hw : tm.finishWaiter t with
  | some w => rfl
  | none =>
    dsimp only
    rw [hw] at hwaiter
    rw [setWaiter, ← hwaiter, Function.update_eq_self]

/-- `Finish` of a task that is not registered as the waiter of another one. -/
theorem Sound.finish {tm : TaskManager} (h : tm.Sound) (exitCode : Int) {t : Nat}
    (hcur : tm.currentTask = some t) (hidle : t ≠ idleId)
    (hwaits : ∀ id w, tm.finishWaiter id = some w → w ≠ t) :
    ∃ tm', tm.finish exitCode = some tm' ∧ tm'.Sound ∧ tm'.tasks = tm.tasks.erase t ∧
      tm'.finishTasks = Function.update tm.finishTasks t (some exitCode) ∧
      tm'.finishWaiter = Function.update tm.finishWaiter t none := by
  obtain ⟨front, rest, hfront⟩ := h.selected.exists_current
  obtain rfl : front = t := by
    rw [currentTask, hfront] at hcur
    exact Option.some.inj hcur
  obtain ⟨hrest, hl, -⟩ := h.queued.filter_front hfront
  generalize hgone : ((tm.setQueue tm.currentLevel rest).removeFinished front exitCode).setWaiter
    front none = gone
  have htasks : gone.tasks = tm.tasks.erase front := by rw [← hgone]; rfl
  have hcodes : gone.finishTasks = Function.update tm.finishTasks front (some exitCode) := by
    rw [← hgone]; rfl
  have hwaiters : gone.finishWaiter = Function.update tm.finishWaiter front none := by
    rw [← hgone]; rfl
  have hwaiter : ∀ id w, gone.finishWaiter id = some w → w ∈ tm.tasks ∧ w ≠ front := by
    intro id w hw
    rw [hwaiters] at hw
    by_cases hid : id = front
    · rw [hid, Function.update_self] at hw
      cases hw
    · rw [Function.update_of_ne hid] at hw
      exact ⟨h.queued.waiter id w hw, hwaits id w hw⟩
  have hqueue : ∀ lv ≤ kMaxLevel, gone.running lv = (tm.running lv).filter (· ≠ front) := by
    intro lv hlv
    rw [← hgone]
    by_cases hlv' : lv = tm.currentLevel
    · rw [hlv', ← hrest]
      exact setQueue_self ..
    · -- the finished task is in no other queue
      rw [h.queued.filter_eq_self hlv (.inr fun heq => hlv' (heq.symm.trans hl))]
      exact setQueue_of_ne _ _ _ hlv'
  have hqueued : gone.Queued := by
    apply h.queued.retire hidle htasks _ _ hqueue _ hwaiter
    · rw [← hgone]; rfl
    · rw [← hgone]; rfl
    · rw [← hgone]; exact h.queued.current_le
  have hsound := hqueued.sound_reselect
  have hkeeps := keeps_reselectLevel gone
  rw [finish_eq hfront, hgone]
  dsimp only
  cases hw : tm.finishWaiter front with
  | none => exact ⟨_, rfl, hsound, hkeeps.tasks.trans htasks, hkeeps.finishTasks.trans hcodes,
      hkeeps.finishWaiter.trans hwaiters⟩
  | some w =>
    have hlive : w ∈ gone.reselectLevel.tasks := by
      rw [hkeeps.tasks, htasks]
      exact h.queued.tasks_nodup.mem_erase_iff.mpr ⟨hwaits front w hw, h.queued.waiter front w hw⟩
    obtain ⟨tm', hwake, hsound', hkeeps'⟩ := hsound.wakeup hlive
    have hall := hkeeps.trans hkeeps'
    exact ⟨tm', hwake, hsound', hall.tasks.trans htasks, hall.finishTasks.trans hcodes,
      hall.finishWaiter.trans hwaiters⟩

theorem setWaiter_self (tm : TaskManager) (id : Nat) (w : Option Nat) :
    (tm.setWaiter id w).finishWaiter id = w := Function.update_self ..

theorem setWaiter_of_ne (tm : TaskManager) (w : Option Nat) {id id' : Nat} (h : id' ≠ id) :
    (tm.setWaiter id w).finishWaiter id' = tm.finishWaiter id' := Function.update_of_ne h ..

theorem Sound.setWaiter {tm : TaskManager} (h : tm.Sound) (id : Nat) {w : Nat} (hw : w ∈ tm.tasks) :
    (tm.setWaiter id (some w)).Sound := by
  refine ⟨h.queued.congr rfl rfl (fun _ _ => rfl) (fun _ _ => rfl) (fun _ _ => .refl _)
    h.queued.current_le ?_, h.selected⟩
  intro id' w' hw'
  by_cases hid : id' = id
  · rw [hid, setWaiter_self] at hw'
    exact Option.some.inj hw' ▸ hw
  · rw [setWaiter_of_ne tm (some w) hid] at hw'
    exact h.queued.waiter id' w' hw'

end TaskManager

end MikanSaos
