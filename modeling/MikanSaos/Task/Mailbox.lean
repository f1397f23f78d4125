import MikanSaos.Task.TaskRun

/-!
# Mailbox — messages arrive in order, and a task that sleeps has none

`ReceiveMessage` and the `Sleep` after it are one block, and `SendMessage` always wakes: so no message can
come between the look into the mailbox and the sleep.
-/

open Reasoning

namespace MikanSaos

open TaskManager

namespace TaskManager

variable {tm : TaskManager} {u : Nat}

/-- The messages that a call puts into the mailbox of `u`. -/
def newMsgs (tm : TaskManager) (u : Nat) : SchedulerCall → List Message
  | .sendMessage id msg => if id ∈ tm.tasks ∧ id = u then [msg] else []
  | _ => []

theorem tasksAfter_msgs (c : SchedulerCall) (hfresh : tm.lastId < u → (tm.task u).msgs = []) :
    (tm.tasksAfter c u).msgs = (tm.task u).msgs ++ tm.newMsgs u c := by
  have hflag : ∀ t ready, (tm.withFlag t ready u).msgs = (tm.task u).msgs ++ [] := by
    intro t ready
    rw [List.append_nil]
    by_cases hu : u = t
    · rw [hu, withFlag, Function.update_self]
    · rw [withFlag_of_ne tm ready hu]
  cases c with
  | newTask =>
    show (Function.update tm.task (tm.lastId + 1) {} u).msgs = (tm.task u).msgs ++ []
    rw [List.append_nil]
    by_cases hu : u = tm.lastId + 1
    · rw [hfresh (by omega), hu, Function.update_self]
    · rw [Function.update_of_ne hu]
  | sleep t => exact hflag t false
  | wakeup t => exact hflag t true
  | switchTask => exact (List.append_nil _).symm
  | finish exitCode => exact (List.append_nil _).symm
  | sleepId id =>
    rw [tasksAfter]
    split
    · exact hflag id false
    · exact (List.append_nil _).symm
  | wakeupId id =>
    rw [tasksAfter]
    split
    · exact hflag id true
    · exact (List.append_nil _).symm
  | sendMessage id msg =>
    rw [tasksAfter, newMsgs]
    by_cases hid : id ∈ tm.tasks
    · rw [if_pos hid]
      by_cases hu : u = id
      · rw [if_pos ⟨hid, hu.symm⟩, hu, Function.update_self]
      · rw [if_neg fun h => hu h.2.symm, Function.update_of_ne hu, List.append_nil]
    · rw [if_neg hid, if_neg fun h => hid h.1, List.append_nil]

/-- A call touches no task object that is still to be made, but the one `NewTask` makes. -/
theorem Queued.tasksAfter_of_gt (h : tm.Queued) {c : SchedulerCall} (ha : c.Allowed tm)
    (hu : tm.lastId < u) (hnew : c = .newTask → u ≠ tm.lastId + 1) :
    tm.tasksAfter c u = tm.task u := by
  have hother : ∀ t ∈ tm.tasks, u ≠ t := by
    rintro t ht rfl
    have := h.tasks_le u ht
    omega
  unfold tasksAfter
  split
  · exact Function.update_of_ne (hnew rfl) ..
  · exact withFlag_of_ne tm false (hother _ ha.1)
  · split
    · rename_i hid
      exact withFlag_of_ne tm false (hother _ hid)
    · rfl
  · exact withFlag_of_ne tm true (hother _ ha)
  · split
    · rename_i hid
      exact withFlag_of_ne tm true (hother _ hid)
    · rfl
  · split
    · rename_i hid
      exact Function.update_of_ne (hother _ hid) ..
    · rfl
  · rfl
  · rfl

theorem newMsgs_ready {c : SchedulerCall} (h : tm.newMsgs u c ≠ []) :
    (tm.tasksAfter c u).readyOrRunning = true := by
  cases c with
  | sendMessage id msg =>
    rw [newMsgs] at h
    have hid : id ∈ tm.tasks ∧ id = u := by
      by_contra hno
      exact h (if_neg hno)
    rw [tasksAfter, if_pos hid.1, hid.2, Function.update_self]
  | _ => exact absurd rfl h

end TaskManager

namespace TaskRun

/-- The task `r` blocks in `receiveSleep` only. -/
def ReceiverGuard (r : Nat) (_ : TaskRun) : TaskEvent → Prop
  | .call (.sleep t) | .call (.sleepId t) | .waitFinish t _ => t ≠ r
  | _ => True

structure MailboxInv (r : Nat) (s : TaskRun) : Prop where
  sound : s.Sound
  free : s.waits r = none
  fresh : s.tm.lastId < r → s.tm.task r = {}
  asleep : (s.tm.task r).readyOrRunning = false → (s.tm.task r).msgs = []
  fifo : s.received r ++ (s.tm.task r).msgs = s.sent r

variable {s s' : TaskRun} {event : TaskEvent} {r : Nat}

theorem sentBy_eq (s : TaskRun) (c : SchedulerCall) (u : Nat) :
    s.sentBy c u = s.sent u ++ s.tm.newMsgs u c := by
  cases c with
  | sendMessage id msg =>
    rw [sentBy, newMsgs]
    by_cases hid : id ∈ s.tm.tasks
    · rw [if_pos hid]
      by_cases hu : u = id
      · rw [if_pos ⟨hid, hu.symm⟩, hu, Function.update_self]
      · rw [if_neg fun h => hu h.2.symm, Function.update_of_ne hu, List.append_nil]
    · rw [if_neg hid, if_neg fun h => hid h.1, List.append_nil]
  | _ => exact (List.append_nil _).symm

/-- A step that leaves the mailbox of `r` alone and does not take its flag away. -/
theorem MailboxInv.keep (h : s.MailboxInv r) (hsound : s'.Sound) (hfree : s'.waits r = none)
    (hlast : s.tm.lastId = s'.tm.lastId) (hmsgs : (s'.tm.task r).msgs = (s.tm.task r).msgs)
    (hnew : s.tm.lastId < r → s'.tm.task r = s.tm.task r)
    (hready : (s.tm.task r).readyOrRunning = true → (s'.tm.task r).readyOrRunning = true)
    (hreceived : s'.received r = s.received r) (hsent : s'.sent r = s.sent r) : s'.MailboxInv r := by
  refine ⟨hsound, hfree, fun hlt => ?_, fun hasleep => ?_, ?_⟩
  · rw [← hlast] at hlt
    rw [hnew hlt]
    exact h.fresh hlt
  · rw [hmsgs]
    apply h.asleep
    by_contra hr
    rw [hready (by simpa using hr)] at hasleep
    cases hasleep
  · rw [hreceived, hmsgs, hsent]
    exact h.fifo

theorem MailboxInv.call (h : s.MailboxInv r) {c : SchedulerCall} {tm : TaskManager}
    (hguard : ReceiverGuard r s (.call c)) (hfin : ∀ exitCode, c ≠ .finish exitCode)
    (hallowed : c.Allowed s.tm) (hrun : c.run s.tm = some tm) :
    MailboxInv r { s with tm := tm, sent := s.sentBy c } := by
  have htask := run_task hfin hrun
  have hlast := (run_ids hfin hrun).1
  have hmsgs := tasksAfter_msgs c fun hlt => congrArg Task.msgs (h.fresh hlt)
  refine ⟨h.sound.step (.call c tm hfin hallowed hrun), h.free, ?_, ?_, ?_⟩
  · intro hlt
    replace hlt : tm.lastId < r := hlt
    show tm.task r = {}
    have hold : s.tm.lastId < r := by
      rw [hlast] at hlt
      split at hlt <;> omega
    rw [htask, h.sound.tm.queued.tasksAfter_of_gt hallowed hold, h.fresh hold]
    rintro rfl
    rw [hlast, if_pos rfl] at hlt
    omega
  · intro hasleep
    replace hasleep : (tm.task r).readyOrRunning = false := hasleep
    show (tm.task r).msgs = []
    rw [htask] at hasleep ⊢
    rw [hmsgs]
    -- a message that arrives would have set the flag
    have hnone : s.tm.newMsgs r c = [] := by
      by_contra hne
      rw [newMsgs_ready hne] at hasleep
      cases hasleep
    rw [hnone, List.append_nil]
    by_cases hlt : s.tm.lastId < r
    · rw [h.fresh hlt]
    · apply h.asleep
      by_contra hr
      have hready := tasksAfter_ready (c := c) (Nat.le_of_not_lt hlt)
        (by rintro rfl; exact hguard rfl) (by rintro rfl; exact hguard rfl) (by simpa using hr)
      rw [hready] at hasleep
      cases hasleep
  · show s.received r ++ (tm.task r).msgs = s.sentBy c r
    rw [htask, hmsgs, sentBy_eq, ← h.fifo, List.append_assoc]

theorem MailboxInv.receive (h : s.MailboxInv r) {t : Nat} {msg : Message} {tm : TaskManager}
    (hcur : s.tm.currentTask = some t) (hwaits : s.waits t = none)
    (hrun : s.tm.taskReceiveMessage t = (some msg, tm)) :
    MailboxInv r { s with tm := tm,
                          received := Function.update s.received t (s.received t ++ [msg]) } := by
  have hsound := h.sound.step (.receive t msg tm hcur hwaits hrun)
  obtain ⟨-, -, hready, -, hlive⟩ := h.sound.tm.current_queue hcur
  obtain ⟨msgs, hmsgs, rfl⟩ := taskReceiveMessage_some hrun
  by_cases hrt : r = t
  · subst hrt
    have hself : (s.tm.setMsgs r msgs).task r = { s.tm.task r with msgs := msgs } := setTask_self ..
    have hle := h.sound.tm.queued.tasks_le r hlive
    refine ⟨hsound, h.free, fun hlt => ?_, fun hasleep => ?_, ?_⟩
    · replace hlt : s.tm.lastId < r := hlt
      omega
    · -- the receiver is running
      replace hasleep : ((s.tm.setMsgs r msgs).task r).readyOrRunning = false := hasleep
      rw [hself, show (s.tm.task r).readyOrRunning = true from hready] at hasleep
      cases hasleep
    · show Function.update s.received r (s.received r ++ [msg]) r ++
        ((s.tm.setMsgs r msgs).task r).msgs = s.sent r
      rw [hself, Function.update_self, ← h.fifo, hmsgs, List.append_assoc]
      rfl
  · have hother : (s.tm.setMsgs t msgs).task r = s.tm.task r := setTask_of_ne _ _ _ _ hrt
    apply h.keep hsound h.free rfl
    · exact congrArg Task.msgs hother
    · exact fun _ => hother
    · exact fun hr => (congrArg Task.readyOrRunning hother).trans hr
    · exact Function.update_of_ne hrt ..
    · rfl

theorem MailboxInv.receiveSleep (h : s.MailboxInv r) {t : Nat} {tm : TaskManager}
    (hcur : s.tm.currentTask = some t) (hidle : t ≠ idleId) (hwaits : s.waits t = none)
    (hempty : (s.tm.task t).msgs = []) (hsleep : s.tm.sleep t = some tm) :
    MailboxInv r { s with tm := tm } := by
  have hnone : s.tm.taskReceiveMessage t = (none, s.tm) := by
    rw [taskReceiveMessage, hempty]
  have hsound := h.sound.step (.receiveSleep t s.tm tm hcur hidle hwaits hnone hsleep)
  have htask := sleep_task hsleep
  have hlast : tm.lastId = s.tm.lastId := (sleep_ids hsleep).1
  by_cases hrt : r = t
  · subst hrt
    have hself : tm.task r = { s.tm.task r with readyOrRunning := false } := by
      rw [htask, Function.update_self]
    have hle := h.sound.tm.queued.tasks_le r (h.sound.current_mem hcur)
    refine ⟨hsound, h.free, fun hlt => ?_, fun _ => ?_, ?_⟩
    · replace hlt : tm.lastId < r := hlt
      omega
    · show (tm.task r).msgs = []
      rw [hself]
      exact hempty
    · show s.received r ++ (tm.task r).msgs = s.sent r
      rw [hself]
      exact h.fifo
  · have hother : tm.task r = s.tm.task r := by rw [htask, Function.update_of_ne hrt]
    apply h.keep hsound h.free hlast.symm
    · exact congrArg Task.msgs hother
    · exact fun _ => hother
    · exact fun hr => (congrArg Task.readyOrRunning hother).trans hr
    · rfl
    · rfl

theorem MailboxInv.step (h : s.MailboxInv r) (hguard : ReceiverGuard r s event)
    (hstep : TaskStep s event s') : s'.MailboxInv r := by
  have hsound := h.sound.step hstep
  cases hstep with
  | call c tm hfin hallowed hrun => exact h.call hguard hfin hallowed hrun
  | receive t msg tm hcur hwaits hrun => exact h.receive hcur hwaits hrun
  | receiveSleep t tm tm' hcur hidle hwaits hrun hsleep =>
    obtain ⟨hempty, rfl⟩ := taskReceiveMessage_none hrun
    exact h.receiveSleep hcur hidle hwaits hempty hsleep
  | waitFinish t id hcur hidle hwaits =>
    have hrt : r ≠ t := Ne.symm hguard
    apply h.keep hsound _ rfl rfl (fun _ => rfl) (fun hr => hr) rfl rfl
    exact (Function.update_of_ne hrt ..).trans h.free
  | waitReturn t id exitCode tm hcur hwaits hrun =>
    have hrt : r ≠ t := by
      rintro rfl
      rw [h.free] at hwaits
      cases hwaits
    obtain ⟨-, rfl⟩ := waitFinishRound_some hrun
    apply h.keep hsound _ rfl rfl (fun _ => rfl) (fun hr => hr) rfl rfl
    exact (Function.update_of_ne hrt ..).trans h.free
  | waitSleep t id tm hcur hidle hwaits hrun =>
    have hrt : r ≠ t := by
      rintro rfl
      rw [h.free] at hwaits
      cases hwaits
    obtain ⟨-, hsleep⟩ := waitFinishRound_none hrun
    have hother : tm.task r = s.tm.task r := by
      rw [sleep_task hsleep, Function.update_of_ne hrt]
      rfl
    have hlast := (sleep_ids hsleep).1
    apply h.keep hsound h.free hlast.symm
    · exact congrArg Task.msgs hother
    · exact fun _ => hother
    · exact fun hr => (congrArg Task.readyOrRunning hother).trans hr
    · rfl
    · rfl
  | finish t exitCode tm hcur hidle hwaits hrun =>
    have htask := finish_task hcur hrun
    have hlast := (finish_ids hcur hrun).1
    -- the waiter that is woken, if any, is living and keeps its mailbox
    cases hw : s.tm.finishWaiter t with
    | none =>
      rw [hw] at htask
      have hother : tm.task r = s.tm.task r := congrFun htask r
      apply h.keep hsound h.free hlast.symm
      · exact congrArg Task.msgs hother
      · exact fun _ => hother
      · exact fun hr => (congrArg Task.readyOrRunning hother).trans hr
      · rfl
      · rfl
    | some w =>
      rw [hw] at htask
      have hrw : r ≠ w := by
        rintro rfl
        have hwait := (h.sound.waiter t r hw).1
        rw [h.free] at hwait
        cases hwait
      have hother : tm.task r = s.tm.task r :=
        (congrFun htask r).trans (Function.update_of_ne hrw ..)
      apply h.keep hsound h.free hlast.symm
      · exact congrArg Task.msgs hother
      · exact fun _ => hother
      · exact fun hr => (congrArg Task.readyOrRunning hother).trans hr
      · rfl
      · rfl

theorem MailboxInv.init (r : Nat) : TaskRun.init.MailboxInv r := by
  have hmsgs : (TaskRun.init.tm.task r).msgs = [] := by
    by_cases h1 : r = 1
    · rw [h1]; rfl
    · by_cases h2 : r = 2
      · rw [h2]; rfl
      · simp [TaskRun.init, TaskManager.init, TaskManager.newTask, setQueue, setReadyOrRunning, setLevel,
          setTask, Function.update_apply, h1, h2]
  refine ⟨Sound.init, rfl, fun hlt => ?_, fun _ => hmsgs, ?_⟩
  · replace hlt : 2 < r := hlt
    have h1 : r ≠ 1 := by omega
    have h2 : r ≠ 2 := by omega
    simp [TaskRun.init, TaskManager.init, TaskManager.newTask, setQueue, setReadyOrRunning, setLevel,
      setTask, Function.update_apply, h1, h2]
  · rw [hmsgs]
    rfl

theorem MailboxInv.of_reachable (h : Reachable (· = .init) (GuardedStep TaskStep (ReceiverGuard r)) s) :
    s.MailboxInv r := by
  refine h.invariant ?_ ?_
  · rintro _ rfl
    exact MailboxInv.init r
  · rintro s s' hi ⟨event, hguard, hstep⟩
    exact hi.step hguard hstep

end TaskRun

open TaskRun

/-- **No wake-up is lost, and mailboxes are queues.**  A receiver that is not ready has no message, and what
it has received, followed by what is in its mailbox, is what was sent to it, in this order. -/
theorem mailbox_fifo {s : TaskRun} {r : Nat}
    (h : Reachable (· = .init) (GuardedStep TaskStep (ReceiverGuard r)) s) :
    ((s.tm.task r).readyOrRunning = false → (s.tm.task r).msgs = []) ∧
      s.received r ++ (s.tm.task r).msgs = s.sent r :=
  ⟨(MailboxInv.of_reachable h).asleep, (MailboxInv.of_reachable h).fifo⟩

/-- The main task sleeps, is sent two messages and receives the first. -/
theorem mailbox_fifo_two_messages :
    ∃ s : TaskRun, s.received 1 = [.kInterruptXHCI] ∧ (s.tm.task 1).msgs = [.kLayerOpsFinish] ∧
      s.received 1 ++ (s.tm.task 1).msgs = s.sent 1 := by
  have hrun : Reachable (· = .init) (GuardedStep TaskStep (ReceiverGuard 1)) .init := .start rfl
  have hrun := hrun.next ⟨.receiveSleep 1, trivial,
    .receiveSleep 1 _ _ rfl (by decide) rfl rfl rfl⟩
  have hrun := hrun.next ⟨.call (.sendMessage 1 .kInterruptXHCI), trivial,
    .call (.sendMessage 1 .kInterruptXHCI) _ nofun trivial rfl⟩
  have hrun := hrun.next ⟨.call (.sendMessage 1 .kLayerOpsFinish), trivial,
    .call (.sendMessage 1 .kLayerOpsFinish) _ nofun trivial rfl⟩
  have hrun := hrun.next ⟨.call .switchTask, trivial, .call .switchTask _ nofun trivial rfl⟩
  have hrun := hrun.next ⟨.receive 1 .kInterruptXHCI, trivial, .receive 1 _ _ rfl rfl rfl⟩
  exact ⟨_, rfl, rfl, (mailbox_fifo hrun).2⟩

end MikanSaos
