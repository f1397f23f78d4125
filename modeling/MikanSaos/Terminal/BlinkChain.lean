import MikanSaos.Terminal.TerminalTask

/-!
# BlinkChain — the timer of the cursor, which goes on as long as nobody else takes its message

For each terminal the timers, the messages and the message in hand are counted.  A step moves the one that there
is from one place to the next; `ReadEvent` and `Read` lose it when they find it first in the mailbox, and the loop
makes a second one of an application's timer.
-/

open Reasoning

namespace MikanSaos

open TaskManager TimerManager TerminalSystem

variable {Q : PriorityQueue Timer Timer.less}

/-! ## What is counted -/

def Timer.Blink (u : Nat) (timer : Timer) : Prop := timer.value = 1 ∧ timer.taskId = u

instance (u : Nat) : DecidablePred (Timer.Blink u) := fun timer =>
  inferInstanceAs (Decidable (timer.value = 1 ∧ timer.taskId = u))

def Message.Blink : Message → Prop
  | .kTimerTimeout _ value => value = 1
  | _ => False

instance : DecidablePred Message.Blink := fun msg => by
  cases msg <;> unfold Message.Blink <;> infer_instance

/-- The timers that blink for the task `u`. -/
def pending (timers : Q.Carrier) (u : Nat) : Nat := (Q.elems timers).countP (Timer.Blink u)

/-- The messages of such timers in its mailbox. -/
def queued (tm : TaskManager) (u : Nat) : Nat := (tm.task u).msgs.countP fun msg => decide msg.Blink

namespace Activity

/-- The message that is being handled. -/
def handled : Activity → Nat
  | timerTimeout _ value => if value = 1 then 1 else 0
  | _ => 0

/-- What a terminal should have. -/
def links : Activity → Nat
  | command _ => 0
  | _ => 1

/-- The message in hand, if it is of a timer, is one of the terminal's own. -/
def Own : Activity → Prop
  | timerTimeout _ value => value = 1
  | _ => True

theorem own_setCall {a : Activity} (h : a.Own) (call : Option AppCall) : (a.setCall call).Own := by
  cases a with
  | timerTimeout timeout value => exact h
  | _ => trivial

@[simp] theorem handled_setCall (a : Activity) (call : Option AppCall) : (a.setCall call).handled = a.handled := by
  cases a <;> rfl

@[simp] theorem links_setCall (a : Activity) (call : Option AppCall) : (a.setCall call).links = a.links := by
  cases a <;> rfl

/-- Receiving keeps the count, unless it is the timer of an application. -/
theorem handled_receive {msg : Message} (h : ∀ timeout value, msg = .kTimerTimeout timeout value → value = 1) :
    (receive msg).handled = (if msg.Blink then 1 else 0) ∧ (receive msg).links = 1 ∧ (receive msg).Own := by
  cases msg with
  | kTimerTimeout timeout value =>
    obtain rfl := h timeout value rfl
    exact ⟨rfl, rfl, rfl⟩
  | kKeyPush modifier keycode ascii press =>
    simp only [receive]
    split <;> exact ⟨rfl, rfl, trivial⟩
  | _ => exact ⟨rfl, rfl, trivial⟩

end Activity

/-! ## Timers -/

theorem pending_push (timers : Q.Carrier) (timer : Timer) (u : Nat) :
    pending (Q.push timers timer) u = pending timers u + if timer.Blink u then 1 else 0 := by
  unfold pending
  rw [Q.elems_push, Multiset.countP_cons]

/-- Every blink timer that a Tick takes out of the queue becomes a message to its task. -/
theorem tickLoop_pending {n fuel : Nat} {timers : Q.Carrier} {switch : Bool}
    {r : Bool × List (Nat × Message) × Q.Carrier} (h : tickLoop n fuel timers switch = some r) (u : Nat) :
    pending timers u = pending r.2.2 u + r.2.1.countP fun m => decide (m.1 = u ∧ m.2.Blink) := by
  induction fuel generalizing timers switch r with
  | zero => cases h
  | succ fuel ih =>
    rw [tickLoop] at h
    split at h
    · cases h
    · rename_i t htop
      have hpop : pending timers u = pending (Q.pop timers) u + if t.Blink u then 1 else 0 := by
        unfold pending
        rw [Q.elems_pop timers t htop, Multiset.countP_cons]
      split at h
      · cases h
        rfl
      · split at h
        · -- the scheduler's timer is no blink timer, neither before nor after
          rename_i htask
          have hnone : ∀ timer : Timer, timer.value = kTaskTimerValue → ¬ timer.Blink u := by
            intro timer hvalue hblink
            rw [hblink.1] at hvalue
            exact absurd hvalue (by decide)
          rw [hpop, if_neg (hnone t htask), ← ih h, pending_push, if_neg (hnone _ rfl)]
        · obtain ⟨r', hr, rfl⟩ := Option.map_eq_some_iff.mp h
          dsimp only
          rw [hpop, ih hr, List.countP_cons, Nat.add_assoc]
          congr 2
          exact if_congr (by rw [decide_eq_true_eq]; exact and_comm) rfl rfl

/-! ## Mailboxes -/

theorem queued_receive {tm tm' : TaskManager} {t : Nat} {msg : Message}
    (h : tm.taskReceiveMessage t = (some msg, tm')) (u : Nat) :
    queued tm u = queued tm' u + if u = t ∧ msg.Blink then 1 else 0 := by
  obtain ⟨msgs, hmsgs, rfl⟩ := taskReceiveMessage_some h
  unfold queued
  by_cases hu : u = t
  · subst hu
    rw [show ((tm.setMsgs u msgs).task u).msgs = msgs from congrArg Task.msgs (setTask_self ..), hmsgs, List.countP_cons]
    simp
  · rw [show (tm.setMsgs t msgs).task u = tm.task u from setTask_of_ne _ _ _ _ hu, if_neg fun h => hu h.1, Nat.add_zero]

/-- A task manager in which the same tasks live with the same mailboxes. -/
structure Quiet (tm tm' : TaskManager) : Prop where
  lastId : tm'.lastId = tm.lastId
  tasks : tm'.tasks = tm.tasks
  msgs : ∀ u, (tm'.task u).msgs = (tm.task u).msgs

theorem Quiet.refl (tm : TaskManager) : Quiet tm tm := ⟨rfl, rfl, fun _ => rfl⟩

theorem quiet_sleep {tm tm' : TaskManager} {t : Nat} (h : tm.sleep t = some tm') : Quiet tm tm' := by
  refine ⟨(sleep_ids h).1, (sleep_ids h).2, fun u => ?_⟩
  rw [sleep_task h]
  by_cases hu : u = t
  · rw [hu, Function.update_self]
  · rw [Function.update_of_ne hu]

theorem Quiet.queued {tm tm' : TaskManager} (h : Quiet tm tm') (u : Nat) : queued tm' u = queued tm u := by
  unfold MikanSaos.queued
  rw [h.msgs]

theorem finish_msgs {tm tm' : TaskManager} {t : Nat} {exitCode : Int} (hcur : tm.currentTask = some t)
    (h : tm.finish exitCode = some tm') (u : Nat) : (tm'.task u).msgs = (tm.task u).msgs := by
  rw [finish_task hcur h]
  cases tm.finishWaiter t with
  | none => rfl
  | some w =>
    dsimp only
    by_cases hu : u = w
    · rw [hu, Function.update_self]
    · rw [Function.update_of_ne hu]

theorem quiet_waitFinish {tm tm' : TaskManager} {t id : Nat} {exitCode : Option Int}
    (h : tm.waitFinishRound t id = some (exitCode, tm')) : Quiet tm tm' := by
  cases exitCode with
  | some code =>
    obtain ⟨-, rfl⟩ := waitFinishRound_some h
    exact ⟨rfl, rfl, fun _ => rfl⟩
  | none =>
    have hsleep := quiet_sleep (waitFinishRound_none h).2
    exact ⟨hsleep.lastId, hsleep.tasks, hsleep.msgs⟩

/-- A mailbox of a task that is still to be made is empty. -/
def NoMailBeyond (tm : TaskManager) : Prop := ∀ u, tm.lastId < u → (tm.task u).msgs = []

theorem NoMailBeyond.queued {tm : TaskManager} (h : NoMailBeyond tm) {u : Nat} (hu : tm.lastId < u) : queued tm u = 0 := by
  unfold MikanSaos.queued
  rw [h u hu]
  rfl

/-- A message to a living task arrives. -/
theorem sendMessage_queued {tm tm' : TaskManager} (hmail : NoMailBeyond tm) {id : Nat} {msg : Message}
    (h : (SchedulerCall.sendMessage id msg).run tm = some tm') {u : Nat} (hu : u ∈ tm.tasks) :
    queued tm' u = queued tm u + if id = u ∧ msg.Blink then 1 else 0 := by
  unfold queued
  rw [run_task (c := .sendMessage id msg) nofun h, tasksAfter_msgs _ (hmail u), List.countP_append, newMsgs]
  by_cases hid : id = u
  · subst hid
    rw [if_pos ⟨hu, rfl⟩]
    simp [List.countP_singleton]
  · rw [if_neg fun h => hid h.2, if_neg fun h => hid h.1, List.countP_nil]

/-- `SendMessage` to a task that is still to be made does nothing. -/
theorem sendMessage_ids {tm tm' : TaskManager} (hmail : NoMailBeyond tm) (hknown : ∀ t ∈ tm.tasks, t ≤ tm.lastId)
    {id : Nat} {msg : Message} (h : (SchedulerCall.sendMessage id msg).run tm = some tm') :
    tm'.lastId = tm.lastId ∧ tm'.tasks = tm.tasks ∧ NoMailBeyond tm' := by
  have hids := run_ids (c := .sendMessage id msg) nofun h
  refine ⟨hids.1, hids.2, fun u hu => ?_⟩
  rw [hids.1, if_neg nofun] at hu
  rw [run_task (c := .sendMessage id msg) nofun h, tasksAfter_msgs _ (hmail u), hmail u hu, newMsgs,
    if_neg fun hsent => absurd (hknown id hsent.1) (by omega)]
  rfl

theorem deliver_queued {tm tm' : TaskManager} {notices : List (Nat × Message)} (hmail : NoMailBeyond tm)
    (hknown : ∀ t ∈ tm.tasks, t ≤ tm.lastId) (h : deliver tm notices = some tm') :
    (tm'.lastId = tm.lastId ∧ tm'.tasks = tm.tasks ∧ NoMailBeyond tm') ∧
      ∀ u ∈ tm.tasks, queued tm' u = queued tm u + notices.countP fun m => decide (m.1 = u ∧ m.2.Blink) := by
  induction notices generalizing tm with
  | nil =>
    cases h
    exact ⟨⟨rfl, rfl, hmail⟩, fun u _ => rfl⟩
  | cons m notices ih =>
    obtain ⟨tm₁, hsend, hrest⟩ := Option.bind_eq_some_iff.mp h
    obtain ⟨hlast, htasks, hmail₁⟩ := sendMessage_ids hmail hknown hsend
    obtain ⟨hids, hqueued⟩ := ih hmail₁ (by rw [htasks, hlast]; exact hknown) hrest
    refine ⟨⟨hids.1.trans hlast, hids.2.1.trans htasks, hids.2.2⟩, fun u hu => ?_⟩
    rw [hqueued u (htasks ▸ hu), sendMessage_queued hmail hsend hu, List.countP_cons, Nat.add_assoc,
      Nat.add_comm (List.countP _ _)]
    congr 2
    exact if_congr (by rw [decide_eq_true_eq]) rfl rfl

/-- The other calls bring no blink message. -/
theorem call_queued {tm tm' : TaskManager} {c : SchedulerCall} (hmail : NoMailBeyond tm)
    (hallowed : Allowed c) (h : c.run tm = some tm') (u : Nat) : queued tm' u = queued tm u := by
  have hfin : ∀ exitCode, c ≠ .finish exitCode := by
    rintro exitCode rfl
    exact hallowed
  have hnew : (tm.newMsgs u c).countP (fun msg => decide msg.Blink) = 0 := by
    cases c with
    | sendMessage id msg =>
      rw [newMsgs]
      split
      · cases msg with
        | kTimerTimeout timeout value => exact hallowed.elim
        | _ => rfl
      · rfl
    | _ => rfl
  unfold queued
  rw [run_task hfin h, tasksAfter_msgs c (hmail u), List.countP_append, hnew, Nat.add_zero]

theorem call_noMailBeyond {tm tm' : TaskManager} {c : SchedulerCall} (hmail : NoMailBeyond tm)
    (hknown : ∀ t ∈ tm.tasks, t ≤ tm.lastId) (hallowed : Allowed c) (h : c.run tm = some tm') :
    NoMailBeyond tm' ∧ tm.lastId ≤ tm'.lastId ∧ (∀ t ∈ tm'.tasks, t ≤ tm'.lastId) ∧ tm.tasks ⊆ tm'.tasks := by
  have hfin : ∀ exitCode, c ≠ .finish exitCode := by
    rintro exitCode rfl
    exact hallowed
  obtain ⟨hlast, htasks⟩ := run_ids hfin h
  have hle : tm.lastId ≤ tm'.lastId := by
    rw [hlast]
    split <;> omega
  refine ⟨fun u hu => ?_, hle, fun t ht => ?_, fun t ht => ?_⟩
  · have hnew : tm.newMsgs u c = [] := by
      cases c with
      | sendMessage id msg => exact if_neg fun hsent => absurd (hknown id hsent.1) (by omega)
      | _ => rfl
    rw [run_task hfin h, tasksAfter_msgs c (hmail u), hmail u (by omega), hnew]
    rfl
  · rw [htasks] at ht
    cases c with
    | newTask =>
      rw [hlast, if_pos rfl]
      rcases List.mem_append.mp ht with ht | ht
      · exact Nat.le_succ_of_le (hknown t ht)
      · exact Nat.le_of_eq (List.mem_singleton.mp ht)
    | _ => exact (hknown t ht).trans hle
  · rw [htasks]
    cases c with
    | newTask => exact List.mem_append_left _ ht
    | _ => exact ht

/-! ## The invariant -/

/-- What the places hold together for the terminal `u`. -/
def Linked (timers : TimerManager Q) (tm : TaskManager) (u : Nat) (a : Activity) : Prop :=
  pending timers.timers u + queued tm u + a.handled = a.links

namespace TerminalSystem

structure Inv (s : TerminalSystem Q) : Prop where
  mail : NoMailBeyond s.tm
  timers : ∀ u, s.tm.lastId < u → pending s.timers.timers u = 0
  known : ∀ t ∈ s.tm.tasks, t ≤ s.tm.lastId
  living : ∀ t a, s.activity t = some a → t ∈ s.tm.tasks
  linked : ∀ t a, s.activity t = some a → Linked s.timers s.tm t a
  own : ∀ t a, s.activity t = some a → a.Own

variable {s s' : TerminalSystem Q}

theorem Inv.init : (init : TerminalSystem Q).Inv := by
  have hknown : ∀ t ∈ TaskManager.init.tasks, t ≤ TaskManager.init.lastId := by decide
  refine ⟨fun u hu => ?_, fun u hu => ?_, hknown, nofun, nofun, nofun⟩
  · exact congrArg Task.msgs (((TaskRun.MailboxInv.init u).fresh) hu)
  · show pending (Q.push Q.empty sentinel) u = 0
    rw [pending_push, if_neg (by rintro ⟨hvalue, -⟩; exact absurd hvalue (by decide))]
    unfold pending
    rw [Q.elems_empty]
    rfl

/-- A step after which every task is where it was. -/
theorem Inv.keep (h : s.Inv) {tm : TaskManager} {timers : TimerManager Q} (hmail : NoMailBeyond tm)
    (htimers : ∀ u, tm.lastId < u → pending timers.timers u = 0) (hknown : ∀ t ∈ tm.tasks, t ≤ tm.lastId)
    (hliving : ∀ t a, s.activity t = some a → t ∈ tm.tasks)
    (hlinked : ∀ t a, s.activity t = some a → Linked s.timers s.tm t a → Linked timers tm t a) :
    Inv { s with tm := tm, timers := timers } :=
  ⟨hmail, htimers, hknown, hliving, fun t a ha => hlinked t a ha (h.linked t a ha), h.own⟩

/-- A step of the terminal `t`, by which no task comes or goes. -/
theorem Inv.move (h : s.Inv) {tm : TaskManager} {timers : TimerManager Q} {t : Nat} {a a' : Activity}
    (ha : s.activity t = some a) (hids : tm.lastId = s.tm.lastId ∧ tm.tasks = s.tm.tasks) (hmail : NoMailBeyond tm)
    (htimers : ∀ u, s.tm.lastId < u → pending timers.timers u = 0)
    (hown : a'.Own) (hself : Linked s.timers s.tm t a → Linked timers tm t a')
    (hother : ∀ u b, u ≠ t → Linked s.timers s.tm u b → Linked timers tm u b) :
    Inv (setActivity { s with tm := tm, timers := timers } t (some a')) := by
  refine ⟨hmail, fun u hu => htimers u (by rw [← hids.1]; exact hu), ?_, fun u b hb => ?_, fun u b hb => ?_,
    fun u b hb => ?_⟩
  · show ∀ t ∈ tm.tasks, t ≤ tm.lastId
    rw [hids.1, hids.2]
    exact h.known
  all_goals
    replace hb : Function.update s.activity t (some a') u = some b := hb
    by_cases hu : u = t
  · show u ∈ tm.tasks
    rw [hids.2, hu]
    exact h.living t a ha
  · show u ∈ tm.tasks
    rw [Function.update_of_ne hu] at hb
    rw [hids.2]
    exact h.living u b hb
  · rw [hu, Function.update_self] at hb
    cases hb
    rw [hu]
    exact hself (h.linked t a ha)
  · rw [Function.update_of_ne hu] at hb
    exact hother u b hu (h.linked u b hb)
  · rw [hu, Function.update_self] at hb
    cases hb
    exact hown
  · rw [Function.update_of_ne hu] at hb
    exact h.own u b hb

theorem Inv.quiet (h : s.Inv) {tm : TaskManager} (hquiet : Quiet s.tm tm) : Inv { s with tm := tm } := by
  refine h.keep (fun u hu => ?_) ?_ ?_ ?_ ?_
  · rw [hquiet.msgs]
    exact h.mail u (by rw [← hquiet.lastId]; exact hu)
  · rw [hquiet.lastId]
    exact h.timers
  · rw [hquiet.lastId, hquiet.tasks]
    exact h.known
  · rw [hquiet.tasks]
    exact h.living
  · intro t a _ hlinked
    unfold Linked
    rw [hquiet.queued]
    exact hlinked

theorem Inv.tick (h : s.Inv) {fuel : Nat} {switch : Bool} {notices : List (Nat × Message)}
    {timers : TimerManager Q} {tm : TaskManager} (htick : s.timers.tick fuel = some (switch, notices, timers))
    (hsend : deliver s.tm notices = some tm) : Inv { s with tm := tm, timers := timers } := by
  obtain ⟨r, hloop, heq⟩ := Option.map_eq_some_iff.mp htick
  cases heq
  have hmoved := fun u => tickLoop_pending hloop u
  obtain ⟨⟨hlast, htasks, hmail⟩, hqueued⟩ := deliver_queued h.mail h.known hsend
  refine h.keep hmail (fun u hu => ?_) ?_ ?_ ?_
  · have := hmoved u
    have := h.timers u (by rw [← hlast]; exact hu)
    show pending r.2.2 u = 0
    omega
  · rw [hlast, htasks]
    exact h.known
  · rw [htasks]
    exact h.living
  · intro t a ha hlinked
    have := hmoved t
    have := hqueued t (h.living t a ha)
    unfold Linked at *
    show pending r.2.2 t + queued tm t + a.handled = a.links
    omega

theorem Inv.call (h : s.Inv) {c : SchedulerCall} {tm : TaskManager} (hallowed : Allowed c)
    (hrun : c.run s.tm = some tm) : Inv { s with tm := tm } := by
  obtain ⟨hmail, hle, hknown, hsubset⟩ := call_noMailBeyond h.mail h.known hallowed hrun
  refine h.keep hmail (fun u hu => h.timers u (hle.trans_lt hu)) hknown (fun t a ha => hsubset (h.living t a ha)) ?_
  intro t a _ hlinked
  unfold Linked
  rw [call_queued h.mail hallowed hrun]
  exact hlinked

/-- A timer for another task, or one that is no blink timer. -/
theorem Inv.addTimer (h : s.Inv) {timer : Timer} (hlive : timer.taskId ≤ s.tm.lastId)
    (hother : ∀ t a, s.activity t = some a → ¬ timer.Blink t) :
    Inv { s with timers := s.timers.addTimer timer } := by
  refine h.keep h.mail (fun u hu => ?_) h.known h.living fun t a ha hlinked => ?_
  · show pending (Q.push s.timers.timers timer) u = 0
    rw [pending_push, h.timers u hu, if_neg fun hblink => absurd hblink.2 (by omega)]
  · show pending (Q.push s.timers.timers timer) t + queued s.tm t + a.handled = a.links
    rw [pending_push, if_neg (hother t a ha)]
    exact hlinked

theorem Inv.openTerminal (h : s.Inv) :
    Inv (setActivity { s with tm := s.tm.newTask.2 } s.tm.newTask.1 (some (.command none))) := by
  obtain ⟨hmail, hle, hknown, hsubset⟩ := call_noMailBeyond (c := .newTask) h.mail h.known trivial rfl
  have hqueued := call_queued (c := .newTask) h.mail trivial rfl
  have hnew : ∀ t a, s.activity t = some a → t ≠ s.tm.lastId + 1 := by
    rintro t a ha rfl
    exact absurd (h.known _ (h.living _ a ha)) (by omega)
  refine ⟨hmail, fun u hu => h.timers u (hle.trans_lt hu), hknown, fun t a ha => ?_, fun t a ha => ?_,
    fun t a ha => ?_⟩
  all_goals
    replace ha : Function.update s.activity (s.tm.lastId + 1) (some (.command none)) t = some a := ha
    by_cases ht : t = s.tm.lastId + 1
  · rw [ht]
    exact List.mem_append_right _ List.mem_cons_self
  · rw [Function.update_of_ne ht] at ha
    exact hsubset (h.living t a ha)
  · rw [ht, Function.update_self] at ha
    cases ha
    show pending s.timers.timers t + queued s.tm.newTask.2 t + 0 = 0
    rw [hqueued, h.mail.queued (by omega), h.timers t (by omega)]
  · rw [Function.update_of_ne ht] at ha
    show pending s.timers.timers t + queued s.tm.newTask.2 t + a.handled = a.links
    rw [hqueued]
    exact h.linked t a ha
  · rw [ht, Function.update_self] at ha
    cases ha
    trivial
  · rw [Function.update_of_ne ht] at ha
    exact h.own t a ha

/-- `add_blink_timer`, after which the terminal waits: it had none, or the one in hand. -/
theorem Inv.addBlinkTimer (h : s.Inv) {t timeout : Nat} {a : Activity} (ha : s.activity t = some a)
    (hone : a.handled = a.links) :
    Inv (setActivity { s with timers := s.timers.addTimer (blinkTimer t timeout) } t (some .waiting)) := by
  have hlive := h.known t (h.living t a ha)
  have hpush : ∀ u, pending (s.timers.addTimer (blinkTimer t timeout)).timers u =
      pending s.timers.timers u + if t = u then 1 else 0 := by
    intro u
    show pending (Q.push _ _) u = _
    rw [pending_push]
    exact congrArg _ (if_congr (and_iff_right rfl) rfl rfl)
  refine h.move ha ⟨rfl, rfl⟩ h.mail (fun u hu => ?_) trivial (fun hlinked => ?_) fun u b hu hlinked => ?_
  · rw [hpush, h.timers u hu, if_neg (by omega)]
  · unfold Linked at *
    rw [hpush, if_pos rfl]
    show _ + queued s.tm t + 0 = 1
    omega
  · unfold Linked at *
    rw [hpush, if_neg (Ne.symm hu)]
    exact hlinked

/-- Taking out of a mailbox leaves the ids alone. -/
theorem receive_ids {tm tm' : TaskManager} {t : Nat} {msg : Message} (hmail : NoMailBeyond tm)
    (hrun : tm.taskReceiveMessage t = (some msg, tm')) :
    (tm'.lastId = tm.lastId ∧ tm'.tasks = tm.tasks) ∧ NoMailBeyond tm' := by
  obtain ⟨msgs, hmsgs, rfl⟩ := taskReceiveMessage_some hrun
  refine ⟨⟨rfl, rfl⟩, fun u hu => ?_⟩
  have hne : u ≠ t := by
    rintro rfl
    rw [hmail u hu] at hmsgs
    cases hmsgs
  rw [show (tm.setMsgs t msgs).task u = tm.task u from setTask_of_ne _ _ _ _ hne]
  exact hmail u hu

/-- A round of the loop of the terminal. -/
theorem Inv.receive (h : s.Inv) {t : Nat} {msg : Message} {tm : TaskManager} (ha : s.activity t = some .waiting)
    (hrun : s.tm.taskReceiveMessage t = (some msg, tm))
    (hmsg : ∀ timeout value, msg = .kTimerTimeout timeout value → value = 1) :
    Inv (setActivity { s with tm := tm } t (some (.receive msg))) := by
  obtain ⟨hids, hmail⟩ := receive_ids h.mail hrun
  have hqueued := queued_receive hrun
  obtain ⟨hhandled, hlinks, hown⟩ := Activity.handled_receive hmsg
  refine h.move ha hids hmail h.timers hown (fun hlinked => ?_) fun u b hu hlinked => ?_
  · replace hlinked : pending s.timers.timers t + queued s.tm t + 0 = 1 := hlinked
    have hself : queued s.tm t = queued tm t + if msg.Blink then 1 else 0 := by
      rw [hqueued]
      exact congrArg _ (if_congr (and_iff_right rfl) rfl rfl)
    unfold Linked
    rw [hhandled, hlinks]
    omega
  · unfold Linked at *
    rw [hqueued, if_neg fun hc => hu hc.1] at hlinked
    exact hlinked

/-- An application takes a message that does not blink out of a mailbox. -/
theorem Inv.take (h : s.Inv) {t u : Nat} {a : Activity} {call : Option AppCall} {msg : Message} {tm : TaskManager}
    (ha : s.activity t = some a) (hrun : s.tm.taskReceiveMessage u = (some msg, tm)) (hmsg : ¬ msg.Blink) :
    Inv (setActivity { s with tm := tm } t (some (a.setCall call))) := by
  obtain ⟨hids, hmail⟩ := receive_ids h.mail hrun
  have hqueued : ∀ v, queued tm v = queued s.tm v := by
    intro v
    rw [queued_receive hrun v, if_neg fun hc => hmsg hc.2]
    rfl
  refine h.move ha hids hmail h.timers (Activity.own_setCall (h.own t a ha) call) (fun hlinked => ?_)
    fun v b _ hlinked => ?_
  · unfold Linked at *
    rw [hqueued, Activity.handled_setCall, Activity.links_setCall]
    exact hlinked
  · unfold Linked at *
    rw [hqueued]
    exact hlinked

/-- An application goes on without a message. -/
theorem Inv.quietCall (h : s.Inv) {t : Nat} {a : Activity} {call : Option AppCall} {tm : TaskManager}
    (ha : s.activity t = some a) (hquiet : Quiet s.tm tm) :
    Inv (setActivity { s with tm := tm } t (some (a.setCall call))) := by
  have hinv := h.quiet hquiet
  refine hinv.move ha ⟨rfl, rfl⟩ hinv.mail hinv.timers (Activity.own_setCall (h.own t a ha) call)
    (fun hlinked => ?_) fun v b _ hlinked => hlinked
  unfold Linked at *
  rw [Activity.handled_setCall, Activity.links_setCall]
  exact hlinked

/-- The running task finishes. -/
theorem Inv.finish (h : s.Inv) {t : Nat} {exitCode : Int} {tm : TaskManager} (hcur : s.tm.currentTask = some t)
    (hrun : s.tm.finish exitCode = some tm) : Inv (setActivity { s with tm := tm } t none) := by
  obtain ⟨hlast, htasks⟩ := finish_ids hcur hrun
  have hmsgs := finish_msgs hcur hrun
  refine ⟨fun u hu => ?_, fun u hu => h.timers u (by rw [← hlast]; exact hu), fun u hu => ?_, fun u a ha => ?_,
    fun u a ha => ?_, fun u a ha => ?_⟩
  · show (tm.task u).msgs = []
    rw [hmsgs]
    exact h.mail u (by rw [← hlast]; exact hu)
  · replace hu : u ∈ tm.tasks := hu
    rw [htasks] at hu
    show u ≤ tm.lastId
    rw [hlast]
    exact h.known u (List.mem_of_mem_erase hu)
  all_goals
    replace ha : Function.update s.activity t none u = some a := ha
    have hu : u ≠ t := by
      rintro rfl
      rw [Function.update_self] at ha
      cases ha
    rw [Function.update_of_ne hu] at ha
  · show u ∈ tm.tasks
    rw [htasks]
    exact (List.mem_erase_of_ne hu).mpr (h.living u a ha)
  · show pending s.timers.timers u + queued tm u + a.handled = a.links
    unfold queued
    rw [hmsgs]
    exact h.linked u a ha
  · exact h.own u a ha

/-- Another task takes a message out of its mailbox. -/
theorem Inv.otherReceive (h : s.Inv) {t : Nat} (hother : s.activity t = none) :
    Inv { s with tm := (s.tm.taskReceiveMessage t).2 } := by
  rcases hrun : s.tm.taskReceiveMessage t with ⟨_ | msg, tm⟩
  · obtain ⟨-, rfl⟩ := taskReceiveMessage_none hrun
    exact h
  · obtain ⟨⟨hlast, htasks⟩, hmail⟩ := receive_ids h.mail hrun
    have hqueued := queued_receive hrun
    refine h.keep hmail (fun u hu => h.timers u (by rw [← hlast]; exact hu)) ?_ ?_ fun u a ha hlinked => ?_
    · show ∀ t ∈ tm.tasks, t ≤ tm.lastId
      rw [hlast, htasks]
      exact h.known
    · show ∀ t a, s.activity t = some a → t ∈ tm.tasks
      rw [htasks]
      exact h.living
    · have hu : u ≠ t := by
        rintro rfl
        rw [hother] at ha
        cases ha
      unfold Linked at *
      rw [hqueued, if_neg fun hc => hu hc.1] at hlinked
      exact hlinked

/-! ## The condition -/

/-- The first message of the mailbox is of the blink timer. -/
def BlinkFirst (tm : TaskManager) (t : Nat) : Prop := ∃ msg, (tm.task t).msgs.head? = some msg ∧ msg.Blink

/-- The first message of the mailbox is of another timer. -/
def AppTimerFirst (tm : TaskManager) (t : Nat) : Prop :=
  ∃ timeout value, (tm.task t).msgs.head? = some (.kTimerTimeout timeout value) ∧ value ≠ 1

/-- `ReadEvent` and `Read` find no message of the blink timer, and the loop finds no other timer's. -/
def TakesOwn (s : TerminalSystem Q) : TerminalEvent → Prop
  | .receive t => ¬ AppTimerFirst s.tm t
  | .readEvent t => ∀ a len events, s.activity t = some a → a.call = some (.readEvent len events) →
      events.length < len → ¬ BlinkFirst s.tm t
  | .read _ terminal => ¬ BlinkFirst s.tm terminal
  | _ => True

theorem Inv.readEvent (h : s.Inv) {t len : Nat} {events : List AppEvent} {a : Activity} {call : Option AppCall}
    {state : ReadEventState} {tm : TaskManager} (ha : s.activity t = some a)
    (hfirst : events.length < len → ¬ BlinkFirst s.tm t)
    (hrun : s.tm.readEventRound t len events = some (state, tm)) :
    Inv (setActivity { s with tm := tm } t (some (a.setCall call))) := by
  unfold TaskManager.readEventRound at hrun
  split at hrun
  · rename_i hroom
    split at hrun
    · rename_i tm₁ hreceive
      obtain ⟨-, rfl⟩ := taskReceiveMessage_none hreceive
      split at hrun
      · obtain ⟨tm₂, hsleep, heq⟩ := Option.map_eq_some_iff.mp hrun
        cases heq
        exact h.quietCall ha (quiet_sleep hsleep)
      · cases hrun
        exact h.quietCall ha (.refl _)
    · rename_i msg tm₁ hreceive
      cases hrun
      obtain ⟨msgs, hmsgs, -⟩ := taskReceiveMessage_some hreceive
      exact h.take ha hreceive fun hblink => hfirst hroom ⟨msg, by rw [hmsgs]; rfl, hblink⟩
  · cases hrun
    exact h.quietCall ha (.refl _)

theorem Inv.read (h : s.Inv) {t terminal : Nat} {a : Activity} {call : Option AppCall}
    {result : Option (List UInt8)} {tm : TaskManager} (ha : s.activity t = some a)
    (hfirst : ¬ BlinkFirst s.tm terminal) (hrun : s.tm.terminalReadRound terminal = some (result, tm)) :
    Inv (setActivity { s with tm := tm } t (some (a.setCall call))) := by
  unfold TaskManager.terminalReadRound at hrun
  split at hrun
  · rename_i tm₁ hreceive
    obtain ⟨-, rfl⟩ := taskReceiveMessage_none hreceive
    obtain ⟨tm₂, hsleep, heq⟩ := Option.map_eq_some_iff.mp hrun
    cases heq
    exact h.quietCall ha (quiet_sleep hsleep)
  · rename_i msg tm₁ hreceive
    cases hrun
    obtain ⟨msgs, hmsgs, -⟩ := taskReceiveMessage_some hreceive
    exact h.take ha hreceive fun hblink => hfirst ⟨msg, by rw [hmsgs]; rfl, hblink⟩

theorem Inv.step {event : TerminalEvent} (h : s.Inv) (hguard : TakesOwn s event)
    (hstep : TerminalStep s event s') : s'.Inv := by
  cases hstep with
  | tick fuel switch notices timers tm htick hsend => exact h.tick htick hsend
  | call c tm hallowed hrun => exact h.call hallowed hrun
  | waitFinish t id exitCode tm hcur hrun => exact h.quiet (quiet_waitFinish hrun)
  | otherReceive t hother => exact h.otherReceive hother
  | otherTimer timer hlive hother =>
    refine h.addTimer (h.known _ hlive) fun t a ha hblink => ?_
    rw [hblink.2, ha] at hother
    cases hother
  | otherFinish t exitCode tm hcur hother hrun =>
    have hinv := h.finish hcur hrun
    rwa [setActivity, ← hother, Function.update_eq_self] at hinv
  | openTerminal => exact h.openTerminal
  | startLoop t hcur ha => exact h.addBlinkTimer ha rfl
  | receive t msg tm hcur ha hrun =>
    obtain ⟨msgs, hmsgs, -⟩ := taskReceiveMessage_some hrun
    refine h.receive ha hrun fun timeout value hmsg => ?_
    by_contra hvalue
    exact hguard ⟨timeout, value, by rw [hmsgs, hmsg]; rfl, hvalue⟩
  | receiveSleep t tm tm' hcur ha hrun hsleep =>
    obtain ⟨-, rfl⟩ := taskReceiveMessage_none hrun
    exact h.quiet (quiet_sleep hsleep)
  | addBlinkTimer t timeout value hcur ha =>
    obtain rfl : value = 1 := h.own t _ ha
    exact h.addBlinkTimer ha rfl
  | inputDone t hcur ha =>
    exact h.move ha ⟨rfl, rfl⟩ h.mail h.timers trivial (fun hlinked => hlinked) fun u b _ hlinked => hlinked
  | finish t exitCode tm hcur ha hrun => exact h.finish hcur hrun
  | createTimer t timeout timerValue a hcur ha hrunning hvalue =>
    refine h.addTimer (h.known _ (h.living t a ha)) fun u b _ hblink => ?_
    replace hblink : -timerValue = 1 := hblink.1
    omega
  | callRead t call a hcur ha hrunning hstarts => exact h.quietCall ha (.refl _)
  | readEvent t len events a state tm hcur ha hcall hrun => exact h.readEvent ha (hguard a len events ha hcall) hrun
  | read t terminal a result tm hcur ha hcall hrun => exact h.read ha hguard hrun

theorem Inv.of_reachable (h : Reachable (· = TerminalSystem.init) (GuardedStep TerminalStep TakesOwn) s) : s.Inv := by
  refine h.invariant ?_ ?_
  · rintro _ rfl
    exact Inv.init
  · rintro s s' hi ⟨event, hguard, hstep⟩
    exact hi.step hguard hstep

/-- The pending timers, the messages in the mailbox, and the one in hand. -/
def chain (s : TerminalSystem Q) (t : Nat) : Nat :=
  pending s.timers.timers t + queued s.tm t + ((s.activity t).map Activity.handled).getD 0

end TerminalSystem

/-- **The chain of the cursor's timer goes on** while nobody takes a message of it for something else: there is
always one timer, or one message, of a terminal that is in its loop. -/
theorem blink_chain {s : TerminalSystem Q}
    (h : Reachable (· = TerminalSystem.init) (GuardedStep TerminalStep TakesOwn) s) {t : Nat} {a : Activity}
    (ha : s.activity t = some a) (hloop : a.InLoop) : s.chain t = 1 := by
  have hlinked := (Inv.of_reachable h).linked t a ha
  have hlinks : a.links = 1 := by
    cases a with
    | command call => exact hloop.elim
    | _ => rfl
  rw [chain, ha]
  exact hlinked.trans hlinks

/-- The main task opens a terminal and sleeps, and the terminal enters its loop. -/
theorem blink_chain_starts :
    ∃ s : TerminalSystem timerQueue, s.activity 3 = some .waiting ∧ pending s.timers.timers 3 = 1 ∧ s.chain 3 = 1 := by
  have hrun : Reachable (· = TerminalSystem.init) (GuardedStep (TerminalStep (Q := timerQueue)) TakesOwn) .init :=
    .start rfl
  have hrun := hrun.next ⟨.openTerminal, trivial, .openTerminal⟩
  have hrun := hrun.next ⟨.call (.wakeup 3), trivial, .call (.wakeup 3) _ trivial rfl⟩
  have hrun := hrun.next ⟨.call (.sleep 1), trivial, .call (.sleep 1) _ trivial rfl⟩
  have hrun := hrun.next ⟨.startLoop 3, trivial, .startLoop 3 rfl rfl⟩
  exact ⟨_, rfl, by decide, blink_chain hrun rfl trivial⟩

/-- The blink timer of the task 3 and the sentinel, at tick `n`. -/
def blinkTimers (n : Nat) : TimerManager timerQueue := ⟨n, show List Timer from [blinkTimer 3 0, sentinel]⟩

/-- The ticks before the first timeout. -/
theorem ticks_pass {s : TerminalSystem timerQueue} (hrun : Reachable (· = .init) (GuardedStep TerminalStep fun _ _ => True) s)
    (htimers : s.timers = blinkTimers 0) (n : Nat) (hn : n < 50) :
    Reachable (· = TerminalSystem.init) (GuardedStep TerminalStep fun _ _ => True)
      { s with timers := blinkTimers n } := by
  induction n with
  | zero => rwa [← htimers]
  | succ n ih =>
    have hnext : add64 n 1 = n + 1 := Nat.mod_eq_of_lt (by omega)
    have hloop : tickLoop (n + 1) 1 (blinkTimers n).timers false =
        some (false, [], (blinkTimers (n + 1)).timers) := if_pos hn
    have htick : (blinkTimers n).tick 1 = some (false, [], blinkTimers (n + 1)) := by
      rw [TimerManager.tick, show (blinkTimers n).currentTick = n from rfl, hnext, hloop]
      rfl
    exact (ih (by omega)).next ⟨.tick, trivial, .tick 1 false [] _ s.tm htick rfl⟩

/-- An application waits in `ReadEvent` when the timer of the cursor runs out, and drops its message: there is
neither a timer nor a message left. -/
theorem blink_chain_broken :
    ∃ (s : TerminalSystem timerQueue) (a : Activity),
      Reachable (· = TerminalSystem.init) (GuardedStep TerminalStep fun _ _ => True) s ∧
      s.activity 3 = some a ∧ a.InLoop ∧ s.chain 3 ≠ 1 := by
  have hrun : Reachable (· = TerminalSystem.init) (GuardedStep (TerminalStep (Q := timerQueue)) fun _ _ => True) .init :=
    .start rfl
  have hrun := hrun.next ⟨.openTerminal, trivial, .openTerminal⟩
  have hrun := hrun.next ⟨.call (.wakeup 3), trivial, .call (.wakeup 3) _ trivial rfl⟩
  have hrun := hrun.next ⟨.call (.sleep 1), trivial, .call (.sleep 1) _ trivial rfl⟩
  have hrun := hrun.next ⟨.startLoop 3, trivial, .startLoop 3 rfl rfl⟩
  have hrun := hrun.next ⟨.call (.sendMessage 3 (.kKeyPush 0 40 10 1)), trivial, .call _ _ trivial rfl⟩
  have hrun := hrun.next ⟨.receive 3, trivial, .receive 3 _ _ rfl rfl rfl⟩
  have hrun := hrun.next ⟨.callRead 3 (.readEvent 1 []), trivial, .callRead 3 _ _ rfl rfl trivial rfl⟩
  have hrun := ticks_pass hrun rfl 49 (by decide)
  have hrun := hrun.next ⟨.tick, trivial, .tick 2 false [(3, .kTimerTimeout 50 1)] _ _ rfl rfl⟩
  have hrun := hrun.next ⟨.readEvent 3, trivial, .readEvent 3 1 [] _ (.reading []) _ rfl rfl rfl rfl⟩
  exact ⟨_, _, hrun, rfl, trivial, by decide⟩

end MikanSaos
