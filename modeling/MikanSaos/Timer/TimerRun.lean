import MikanSaos.Reasoning.Reach
import MikanSaos.Timer.TimerManager

/-!
# TimerRun — every timer fires once, in its tick

Timers are counted as a multiset: at any time the queue holds the sentinel, the scheduler's timer, and
the added timers that are not due yet.
-/

open Reasoning

namespace MikanSaos

namespace Timer

def Due (n : Nat) (t : Timer) : Prop := t.timeout ≤ n

/-- The scheduler's timer is due. -/
def TaskDue (n : Nat) (t : Timer) : Prop := t.Due n ∧ t.value = kTaskTimerValue

/-- A timer that sends a message is due. -/
def OtherDue (n : Nat) (t : Timer) : Prop := t.Due n ∧ t.value ≠ kTaskTimerValue

instance (n : Nat) : DecidablePred (Due n) := fun t => inferInstanceAs (Decidable (t.timeout ≤ n))
instance (n : Nat) : DecidablePred (TaskDue n) := fun t =>
  inferInstanceAs (Decidable (t.Due n ∧ t.value = kTaskTimerValue))
instance (n : Nat) : DecidablePred (OtherDue n) := fun t =>
  inferInstanceAs (Decidable (t.Due n ∧ t.value ≠ kTaskTimerValue))

end Timer

namespace TimerManager

variable {Q : PriorityQueue Timer Timer.less} {n fuel : Nat} {timers : Q.Carrier} {t : Timer}
  {taskTimerTimeout : Bool} {r : Bool × List (Nat × Message) × Q.Carrier}

/-! ## One Tick -/

/-- The arguments of `SendMessage` for a timer. -/
def notice (t : Timer) : Nat × Message := (t.taskId, .kTimerTimeout t.timeout t.value)

/-- The timeout in a message of a timer. -/
def noticeTimeout : Nat × Message → Nat
  | (_, .kTimerTimeout timeout _) => timeout
  | _ => 0

/-- What the loop makes of the timers `E` at tick `n`. -/
structure Fires (n : Nat) (E : Multiset Timer) (taskTimerTimeout : Bool)
    (r : Bool × List (Nat × Message) × Q.Carrier) : Prop where
  switch : r.1 = true ↔ taskTimerTimeout = true ∨ ∃ t ∈ E, t.TaskDue n
  notices : (r.2.1 : Multiset (Nat × Message)) = (E.filter (Timer.OtherDue n)).map notice
  inOrder : r.2.1.Pairwise fun a b => noticeTimeout a ≤ noticeTimeout b
  left : Q.elems r.2.2 = E.filter (¬ Timer.Due n ·) +
    (E.filter (Timer.TaskDue n)).map fun _ => taskTimer (n + kTaskTimerPeriod)

theorem taskTimer_later : ¬ Timer.Due n (taskTimer (n + kTaskTimerPeriod)) := by
  show ¬ n + 2 ≤ n
  omega

/-- No timer is due. -/
theorem Fires.stop (h : ∀ t ∈ Q.elems timers, ¬ t.Due n) :
    Fires n (Q.elems timers) taskTimerTimeout (taskTimerTimeout, [], timers) := by
  refine ⟨⟨.inl, ?_⟩, ?_, .nil, ?_⟩
  · rintro (hflag | ⟨t, ht, hdue, -⟩)
    · exact hflag
    · exact absurd hdue (h t ht)
  · rw [Multiset.filter_eq_nil.mpr fun t ht hdue => h t ht hdue.1]
    rfl
  · rw [Multiset.filter_eq_self.mpr h, Multiset.filter_eq_nil.mpr fun t ht hdue => h t ht hdue.1,
      Multiset.map_zero, Multiset.add_zero]

/-- The scheduler's timer is due: it goes back into the queue. -/
theorem Fires.rearm {E : Multiset Timer} (hdue : t.TaskDue n)
    (h : Fires n (taskTimer (n + kTaskTimerPeriod) ::ₘ E) true r) :
    Fires n (t ::ₘ E) taskTimerTimeout r := by
  have hlater := taskTimer_later (n := n)
  refine ⟨?_, ?_, h.inOrder, ?_⟩
  · exact iff_of_true (h.switch.mpr (.inl rfl)) (.inr ⟨t, Multiset.mem_cons_self t E, hdue⟩)
  · rw [h.notices, Multiset.filter_cons_of_neg _ fun hd => hlater hd.1,
      Multiset.filter_cons_of_neg _ fun hd => hd.2 hdue.2]
  · rw [h.left, Multiset.filter_cons_of_pos (p := (¬ Timer.Due n ·)) _ hlater,
      Multiset.filter_cons_of_neg _ fun hd => hlater hd.1,
      Multiset.filter_cons_of_neg (p := (¬ Timer.Due n ·)) _ (not_not.mpr hdue.1),
      Multiset.filter_cons_of_pos _ hdue, Multiset.map_cons, Multiset.cons_add, Multiset.add_cons]

/-- Another timer is due, and none before it. -/
theorem Fires.send {E : Multiset Timer} (hdue : t.OtherDue n)
    (hfirst : ∀ u ∈ E, t.timeout ≤ u.timeout) (h : Fires n E taskTimerTimeout r) :
    Fires n (t ::ₘ E) taskTimerTimeout (r.1, notice t :: r.2.1, r.2.2) := by
  refine ⟨?_, ?_, ?_, ?_⟩
  · rw [h.switch]
    constructor
    · rintro (hflag | ⟨u, hu, hs⟩)
      · exact .inl hflag
      · exact .inr ⟨u, Multiset.mem_cons_of_mem hu, hs⟩
    · rintro (hflag | ⟨u, hu, hs⟩)
      · exact .inl hflag
      · rcases Multiset.mem_cons.mp hu with rfl | hu
        · exact absurd hs.2 hdue.2
        · exact .inr ⟨u, hu, hs⟩
  · rw [Multiset.filter_cons_of_pos _ hdue, Multiset.map_cons, ← h.notices]
    rfl
  · refine List.pairwise_cons.mpr ⟨fun m hm => ?_, h.inOrder⟩
    have hm' : m ∈ (r.2.1 : Multiset (Nat × Message)) := hm
    rw [h.notices] at hm'
    obtain ⟨u, hu, rfl⟩ := Multiset.mem_map.mp hm'
    exact hfirst u (Multiset.mem_of_mem_filter hu)
  · rw [h.left, Multiset.filter_cons_of_neg (p := (¬ Timer.Due n ·)) _ (not_not.mpr hdue.1),
      Multiset.filter_cons_of_neg _ fun hd => hdue.2 hd.2]

/-- Two collections with the same due timers of the scheduler. -/
theorem exists_mem_congr {E E' : Multiset Timer}
    (h : E.filter (Timer.TaskDue n) = E'.filter (Timer.TaskDue n)) :
    (∃ t ∈ E, t.TaskDue n) ↔ ∃ t ∈ E', t.TaskDue n := by
  have hiff : ∀ t, t ∈ E ∧ t.TaskDue n ↔ t ∈ E' ∧ t.TaskDue n := fun t => by
    rw [← Multiset.mem_filter, h, Multiset.mem_filter]
  exact exists_congr hiff

theorem tickLoop_fires (hwrap : n + kTaskTimerPeriod < 2 ^ 64)
    (h : tickLoop n fuel timers taskTimerTimeout = some r) :
    Fires n (Q.elems timers) taskTimerTimeout r := by
  induction fuel generalizing timers taskTimerTimeout r with
  | zero => cases h
  | succ fuel ih =>
    rw [tickLoop] at h
    split at h
    · cases h
    · rename_i t htop
      have hfirst : ∀ u ∈ Q.elems timers, t.timeout ≤ u.timeout :=
        fun u hu => Nat.not_lt.mp (Q.top_greatest timers t htop u hu)
      have hpop := Q.elems_pop timers t htop
      split at h
      · rename_i hlater
        cases h
        exact .stop fun u hu => Nat.not_le.mpr (Nat.lt_of_lt_of_le hlater (hfirst u hu))
      · rename_i hdue
        replace hdue : t.Due n := Nat.not_lt.mp hdue
        rw [hpop]
        split at h
        · rename_i htask
          have hfires := ih h
          rw [Q.elems_push, add64, Nat.mod_eq_of_lt hwrap] at hfires
          exact hfires.rearm ⟨hdue, htask⟩
        · rename_i hother
          obtain ⟨r', hr, rfl⟩ := Option.map_eq_some_iff.mp h
          refine (ih hr).send ⟨hdue, hother⟩ fun u hu => ?_
          apply hfirst
          rw [hpop]
          exact Multiset.mem_cons_of_mem hu

/-- A round for each timer that is due, and one to stop, suffice as long as some timer is not due. -/
theorem tickLoop_terminates (hwrap : n + kTaskTimerPeriod < 2 ^ 64) (taskTimerTimeout : Bool)
    {last : Timer} (hlater : ¬ last.Due n) (hlast : last ∈ Q.elems timers)
    (hfuel : ((Q.elems timers).filter (Timer.Due n)).card < fuel) :
    ∃ r, tickLoop n fuel timers taskTimerTimeout = some r := by
  induction fuel generalizing timers taskTimerTimeout with
  | zero => omega
  | succ fuel ih =>
    obtain ⟨t, htop⟩ := Q.exists_top hlast
    have hpop := Q.elems_pop timers t htop
    rw [tickLoop, htop]
    dsimp only
    split
    · exact ⟨_, rfl⟩
    · rename_i hdue
      replace hdue : t.Due n := Nat.not_lt.mp hdue
      rw [hpop, Multiset.filter_cons_of_pos _ hdue, Multiset.card_cons] at hfuel
      have hstays : last ∈ Q.elems (Q.pop timers) := by
        rw [hpop] at hlast
        rcases Multiset.mem_cons.mp hlast with rfl | hmem
        · exact absurd hdue hlater
        · exact hmem
      split
      · apply ih
        · rw [Q.elems_push]
          exact Multiset.mem_cons_of_mem hstays
        · rw [Q.elems_push, add64, Nat.mod_eq_of_lt hwrap, Multiset.filter_cons_of_neg _ taskTimer_later]
          omega
      · obtain ⟨r, hr⟩ := ih taskTimerTimeout hstays (Nat.lt_of_succ_lt_succ hfuel)
        rw [hr]
        exact ⟨_, rfl⟩

end TimerManager

/-! ## Runs -/

/-- A timer, and the tick at which it was added. -/
structure AddedTimer where
  tick : Nat
  timer : Timer

namespace AddedTimer

/-- A timer that is already over runs out in the next tick. -/
def due (a : AddedTimer) : Nat := max a.timer.timeout (a.tick + 1)

/-- Tick `c` or an earlier one has sent its message. -/
def Fired (c : Nat) (a : AddedTimer) : Prop := a.due ≤ c

instance (c : Nat) : DecidablePred (Fired c) := fun a => inferInstanceAs (Decidable (a.due ≤ c))

/-- The tick of a message, and the arguments of `SendMessage`. -/
def firing (a : AddedTimer) : Nat × Nat × Message := (a.due, TimerManager.notice a.timer)

end AddedTimer

/-- The timer manager.  The other fields record the timers that were added, the tick at which
`InitializeTask` ran, the messages with the ticks that sent them, and the ticks that returned true. -/
structure TimerRun (Q : PriorityQueue Timer Timer.less) where
  tm : TimerManager Q
  added : Multiset AddedTimer
  armed : Option Nat
  sent : List (Nat × Nat × Message)
  switches : List Nat

inductive TimerEvent where
  | addTimer (timer : Timer)
  | initializeTask
  | tick
  deriving DecidableEq

variable {Q : PriorityQueue Timer Timer.less}

/-- One step.  Nobody but the scheduler adds a timer with its value. -/
inductive TimerStep (s : TimerRun Q) : TimerEvent → TimerRun Q → Prop
  | addTimer (timer : Timer) (hvalue : timer.value ≠ kTaskTimerValue) :
      TimerStep s (.addTimer timer)
        { s with tm := s.tm.addTimer timer, added := ⟨s.tm.currentTick, timer⟩ ::ₘ s.added }
  | initializeTask (harmed : s.armed = none) :
      TimerStep s .initializeTask
        { s with tm := s.tm.addTimer
                   (TimerManager.taskTimer (add64 s.tm.currentTick kTaskTimerPeriod)),
                 armed := some s.tm.currentTick }
  | tick (fuel : Nat) (taskTimerTimeout : Bool) (notices : List (Nat × Message)) (tm : TimerManager Q)
      (hrun : s.tm.tick fuel = some (taskTimerTimeout, notices, tm)) :
      TimerStep s .tick
        { s with tm := tm, sent := s.sent ++ notices.map fun m => (tm.currentTick, m),
                 switches := if taskTimerTimeout then s.switches ++ [tm.currentTick] else s.switches }

namespace TimerRun

open TimerManager

def init : TimerRun Q := ⟨.init, 0, none, [], []⟩

/-- The tick count leaves room for the scheduler's period. -/
def TickInRange (s : TimerRun Q) : TimerEvent → Prop
  | .tick => s.tm.currentTick + 1 + kTaskTimerPeriod ≤ unsignedLongMax
  | _ => True

/-- The ticks at which the scheduler's timer runs out. -/
def SwitchTick (armed : Option Nat) (n : Nat) : Prop :=
  ∃ start, armed = some start ∧ ∃ k, 1 ≤ k ∧ n = start + k * kTaskTimerPeriod

/-- The scheduler's timer in the queue after tick `c`. -/
def taskTimers (armed : Option Nat) (c : Nat) : Multiset Timer :=
  match armed with
  | none => 0
  | some start => {taskTimer (start + ((c - start) / kTaskTimerPeriod + 1) * kTaskTimerPeriod)}

/-- The messages come tick by tick, and within a tick by timeout. -/
def InOrder (a b : Nat × Nat × Message) : Prop :=
  a.1 < b.1 ∨ a.1 = b.1 ∧ noticeTimeout a.2 ≤ noticeTimeout b.2

structure Inv (s : TimerRun Q) : Prop where
  range : s.tm.currentTick + kTaskTimerPeriod ≤ unsignedLongMax
  past : ∀ a ∈ s.added, a.tick ≤ s.tm.currentTick ∧ a.timer.value ≠ kTaskTimerValue
  timers : Q.elems s.tm.timers = sentinel ::ₘ (taskTimers s.armed s.tm.currentTick +
    (s.added.filter (¬ AddedTimer.Fired s.tm.currentTick ·)).map AddedTimer.timer)
  sent : (s.sent : Multiset (Nat × Nat × Message)) =
    (s.added.filter (AddedTimer.Fired s.tm.currentTick)).map AddedTimer.firing
  sentPast : ∀ m ∈ s.sent, m.1 ≤ s.tm.currentTick
  inOrder : s.sent.Pairwise InOrder
  armedPast : ∀ start, s.armed = some start → start ≤ s.tm.currentTick
  switches : ∀ n, n ∈ s.switches ↔ n ≤ s.tm.currentTick ∧ SwitchTick s.armed n

variable {s s' : TimerRun Q} {event : TimerEvent} {c : Nat}

/-! ## The scheduler's timer -/

theorem taskTimers_value {armed : Option Nat} {t : Timer} (h : t ∈ taskTimers armed c) :
    t.value = kTaskTimerValue := by
  unfold taskTimers at h
  split at h
  · exact absurd h (Multiset.notMem_zero t)
  · rw [Multiset.mem_singleton.mp h]
    rfl

theorem exists_taskDue_iff {armed : Option Nat} (hpast : ∀ start, armed = some start → start ≤ c) :
    (∃ t ∈ taskTimers armed c, t.TaskDue (c + 1)) ↔ SwitchTick armed (c + 1) := by
  cases armed with
  | none =>
    apply iff_of_false
    · rintro ⟨t, ht, -⟩
      exact Multiset.notMem_zero t ht
    · rintro ⟨start, heq, -⟩
      cases heq
  | some start =>
    have hle := hpast start rfl
    constructor
    · rintro ⟨t, ht, hdue, -⟩
      rw [Multiset.mem_singleton.mp ht] at hdue
      refine ⟨start, rfl, (c - start) / kTaskTimerPeriod + 1, Nat.succ_pos _, ?_⟩
      replace hdue : start + ((c - start) / 2 + 1) * 2 ≤ c + 1 := hdue
      show c + 1 = start + ((c - start) / 2 + 1) * 2
      omega
    · rintro ⟨start', heq, k, hk, hn⟩
      cases heq
      refine ⟨_, Multiset.mem_singleton_self _, ?_, rfl⟩
      replace hn : c + 1 = start + k * 2 := hn
      show start + ((c - start) / 2 + 1) * 2 ≤ c + 1
      omega

theorem taskTimers_succ {armed : Option Nat} (hpast : ∀ start, armed = some start → start ≤ c) :
    (taskTimers armed c).filter (¬ Timer.Due (c + 1) ·) +
      ((taskTimers armed c).filter (Timer.TaskDue (c + 1))).map
        (fun _ => taskTimer (c + 1 + kTaskTimerPeriod)) = taskTimers armed (c + 1) := by
  cases armed with
  | none => rfl
  | some start =>
    have hle := hpast start rfl
    by_cases hdue : Timer.Due (c + 1)
        (taskTimer (start + ((c - start) / kTaskTimerPeriod + 1) * kTaskTimerPeriod))
    · show Multiset.filter _ {_} + Multiset.map _ (Multiset.filter _ {_}) = {_}
      rw [Multiset.filter_singleton, if_neg (not_not.mpr hdue), Multiset.filter_singleton,
        if_pos ⟨hdue, rfl⟩, Multiset.map_singleton]
      replace hdue : start + ((c - start) / 2 + 1) * 2 ≤ c + 1 := hdue
      have hnext : c + 1 + kTaskTimerPeriod =
          start + ((c + 1 - start) / kTaskTimerPeriod + 1) * kTaskTimerPeriod := by
        show c + 1 + 2 = start + ((c + 1 - start) / 2 + 1) * 2
        omega
      rw [← hnext]
      exact Multiset.zero_add _
    · show Multiset.filter _ {_} + Multiset.map _ (Multiset.filter _ {_}) = {_}
      rw [Multiset.filter_singleton, if_pos hdue, Multiset.filter_singleton, if_neg fun hd => hdue hd.1]
      replace hdue : ¬ start + ((c - start) / 2 + 1) * 2 ≤ c + 1 := hdue
      have hsame : start + ((c - start) / kTaskTimerPeriod + 1) * kTaskTimerPeriod =
          start + ((c + 1 - start) / kTaskTimerPeriod + 1) * kTaskTimerPeriod := by
        show start + ((c - start) / 2 + 1) * 2 = start + ((c + 1 - start) / 2 + 1) * 2
        omega
      rw [hsame]
      exact Multiset.add_zero _

theorem switchTick_none {n : Nat} : ¬ SwitchTick none n := by
  rintro ⟨start, heq, -⟩
  cases heq

/-! ## What a step preserves -/

theorem Inv.init : (init : TimerRun Q).Inv := by
  refine ⟨show 0 + 2 ≤ 2 ^ 64 - 1 by decide, ?_, ?_, rfl, ?_, .nil, nofun, fun n => ?_⟩
  · exact fun a ha => absurd ha (Multiset.notMem_zero a)
  · show Q.elems (Q.push Q.empty sentinel) = _
    rw [Q.elems_push, Q.elems_empty]
    rfl
  · exact fun m hm => absurd hm List.not_mem_nil
  · exact iff_of_false List.not_mem_nil fun h => switchTick_none h.2

theorem Inv.addTimer (h : s.Inv) {timer : Timer} (hvalue : timer.value ≠ kTaskTimerValue) :
    Inv { s with tm := s.tm.addTimer timer, added := ⟨s.tm.currentTick, timer⟩ ::ₘ s.added } := by
  have hlater : ¬ AddedTimer.Fired s.tm.currentTick ⟨s.tm.currentTick, timer⟩ :=
    Nat.not_le.mpr (Nat.lt_of_lt_of_le (Nat.lt_succ_self _) (Nat.le_max_right _ _))
  refine ⟨h.range, ?_, ?_, ?_, h.sentPast, h.inOrder, h.armedPast, h.switches⟩
  · intro a ha
    rcases Multiset.mem_cons.mp ha with rfl | ha
    · exact ⟨Nat.le_refl _, hvalue⟩
    · exact h.past a ha
  · show Q.elems (Q.push s.tm.timers timer) = sentinel ::ₘ (taskTimers s.armed s.tm.currentTick +
      ((⟨s.tm.currentTick, timer⟩ ::ₘ s.added).filter
        (¬ AddedTimer.Fired s.tm.currentTick ·)).map AddedTimer.timer)
    rw [Q.elems_push, h.timers,
      Multiset.filter_cons_of_pos (p := (¬ AddedTimer.Fired s.tm.currentTick ·)) _ hlater,
      Multiset.map_cons, Multiset.add_cons, Multiset.cons_swap]
  · show (s.sent : Multiset (Nat × Nat × Message)) = ((⟨s.tm.currentTick, timer⟩ ::ₘ s.added).filter
      (AddedTimer.Fired s.tm.currentTick)).map AddedTimer.firing
    rw [h.sent, Multiset.filter_cons_of_neg _ hlater]

theorem Inv.initializeTask (h : s.Inv) (harmed : s.armed = none) :
    Inv { s with tm := s.tm.addTimer (taskTimer (add64 s.tm.currentTick kTaskTimerPeriod)),
                 armed := some s.tm.currentTick } := by
  have hrange := h.range
  have hwrap : s.tm.currentTick + kTaskTimerPeriod < 2 ^ 64 :=
    Nat.lt_of_le_of_lt hrange (by decide)
  refine ⟨h.range, h.past, ?_, h.sent, h.sentPast, h.inOrder, ?_, fun n => ?_⟩
  · show Q.elems (Q.push s.tm.timers _) = sentinel ::ₘ (taskTimers (some s.tm.currentTick)
      s.tm.currentTick + (s.added.filter (¬ AddedTimer.Fired s.tm.currentTick ·)).map AddedTimer.timer)
    have hfirst : s.tm.currentTick +
        ((s.tm.currentTick - s.tm.currentTick) / kTaskTimerPeriod + 1) * kTaskTimerPeriod =
          s.tm.currentTick + kTaskTimerPeriod := by
      rw [Nat.sub_self, Nat.zero_div, Nat.zero_add, Nat.one_mul]
    rw [Q.elems_push, h.timers, harmed, add64, Nat.mod_eq_of_lt hwrap, taskTimers, taskTimers, hfirst,
      Multiset.zero_add, Multiset.singleton_add, Multiset.cons_swap]
  · intro start hstart
    cases hstart
    exact Nat.le_refl _
  · rw [h.switches, harmed]
    apply iff_of_false
    · exact fun hn => switchTick_none hn.2
    · rintro ⟨hle, start, hstart, k, hk, rfl⟩
      cases hstart
      replace hle : s.tm.currentTick + k * 2 ≤ s.tm.currentTick := hle
      omega

/-- The added timers that the next tick finds due. -/
theorem otherDue_iff {a : AddedTimer} (hpast : a.tick ≤ c) (hvalue : a.timer.value ≠ kTaskTimerValue) :
    a.timer.OtherDue (c + 1) ∧ ¬ a.Fired c ↔ a.due = c + 1 := by
  unfold Timer.OtherDue Timer.Due AddedTimer.Fired AddedTimer.due
  omega

/-- The added timers that the next tick leaves in the queue. -/
theorem later_iff {a : AddedTimer} (hpast : a.tick ≤ c) :
    ¬ a.timer.Due (c + 1) ∧ ¬ a.Fired c ↔ ¬ a.Fired (c + 1) := by
  unfold Timer.Due AddedTimer.Fired AddedTimer.due
  omega

theorem sentinel_later (h : c + kTaskTimerPeriod ≤ unsignedLongMax) : ¬ Timer.Due c sentinel := by
  replace h : c + 2 ≤ unsignedLongMax := h
  show ¬ unsignedLongMax ≤ c
  omega

theorem Inv.otherDue (h : s.Inv) (hrange : s.tm.currentTick + 1 + kTaskTimerPeriod ≤ unsignedLongMax) :
    (Q.elems s.tm.timers).filter (Timer.OtherDue (s.tm.currentTick + 1)) =
      (s.added.filter (·.due = s.tm.currentTick + 1)).map AddedTimer.timer := by
  have htasks : (taskTimers s.armed s.tm.currentTick).filter
      (Timer.OtherDue (s.tm.currentTick + 1)) = 0 :=
    Multiset.filter_eq_nil.mpr fun t ht hdue => hdue.2 (taskTimers_value ht)
  rw [h.timers, Multiset.filter_cons_of_neg _ fun hdue => sentinel_later hrange hdue.1,
    Multiset.filter_add, htasks, Multiset.zero_add, Multiset.filter_map, Multiset.filter_filter]
  congr 1
  apply Multiset.filter_congr
  intro a ha
  obtain ⟨hpast, hvalue⟩ := h.past a ha
  exact otherDue_iff hpast hvalue

theorem Inv.taskDue (h : s.Inv) (hrange : s.tm.currentTick + 1 + kTaskTimerPeriod ≤ unsignedLongMax) :
    (Q.elems s.tm.timers).filter (Timer.TaskDue (s.tm.currentTick + 1)) =
      (taskTimers s.armed s.tm.currentTick).filter (Timer.TaskDue (s.tm.currentTick + 1)) := by
  rw [h.timers, Multiset.filter_cons_of_neg _ fun hdue => sentinel_later hrange hdue.1,
    Multiset.filter_add]
  refine (congrArg _ ?_).trans (Multiset.add_zero _)
  refine Multiset.filter_eq_nil.mpr fun t ht hdue => ?_
  obtain ⟨a, ha, rfl⟩ := Multiset.mem_map.mp ht
  exact (h.past a (Multiset.mem_of_mem_filter ha)).2 hdue.2

theorem Inv.later (h : s.Inv) (hrange : s.tm.currentTick + 1 + kTaskTimerPeriod ≤ unsignedLongMax) :
    (Q.elems s.tm.timers).filter (¬ Timer.Due (s.tm.currentTick + 1) ·) =
      sentinel ::ₘ ((taskTimers s.armed s.tm.currentTick).filter (¬ Timer.Due (s.tm.currentTick + 1) ·) +
        (s.added.filter (¬ AddedTimer.Fired (s.tm.currentTick + 1) ·)).map AddedTimer.timer) := by
  rw [h.timers, Multiset.filter_cons_of_pos (p := (¬ Timer.Due (s.tm.currentTick + 1) ·)) _
    (sentinel_later hrange), Multiset.filter_add, Multiset.filter_map, Multiset.filter_filter]
  congr 3
  apply Multiset.filter_congr
  exact fun a ha => later_iff (h.past a ha).1

/-- The messages up to the next tick are those so far and those of the timers due in it. -/
theorem filter_fired_succ (added : Multiset AddedTimer) :
    added.filter (AddedTimer.Fired (c + 1)) =
      added.filter (AddedTimer.Fired c) + added.filter (·.due = c + 1) := by
  rw [Multiset.filter_add_filter]
  have hboth : added.filter (fun a => a.Fired c ∧ a.due = c + 1) = 0 := by
    refine Multiset.filter_eq_nil.mpr fun a _ h => ?_
    have : a.due ≤ c := h.1
    omega
  rw [hboth, Multiset.add_zero]
  apply Multiset.filter_congr
  intro a _
  show a.due ≤ c + 1 ↔ a.due ≤ c ∨ a.due = c + 1
  omega

theorem Inv.tick (h : s.Inv) (hrange : s.tm.currentTick + 1 + kTaskTimerPeriod ≤ unsignedLongMax)
    {fuel : Nat} {switch : Bool} {notices : List (Nat × Message)} {tm : TimerManager Q}
    (hrun : s.tm.tick fuel = some (switch, notices, tm)) :
    Inv { s with tm := tm, sent := s.sent ++ notices.map fun m => (tm.currentTick, m),
                 switches := if switch then s.switches ++ [tm.currentTick] else s.switches } := by
  have hwrap : s.tm.currentTick + 1 + kTaskTimerPeriod < 2 ^ 64 :=
    Nat.lt_of_le_of_lt hrange (by decide)
  have hnext : add64 s.tm.currentTick 1 = s.tm.currentTick + 1 :=
    Nat.mod_eq_of_lt (Nat.lt_of_le_of_lt (Nat.le_add_right _ _) hwrap)
  obtain ⟨r, hloop, heq⟩ := Option.map_eq_some_iff.mp hrun
  rw [hnext] at hloop heq
  cases heq
  have hfires := tickLoop_fires hwrap hloop
  have hnotices := hfires.notices
  rw [h.otherDue hrange] at hnotices
  refine ⟨hrange, fun a ha => ?_, ?_, ?_, ?_, ?_, fun start hstart => ?_, fun n => ?_⟩
  · obtain ⟨hle, hvalue⟩ := h.past a ha
    exact ⟨Nat.le_succ_of_le hle, hvalue⟩
  · show Q.elems r.2.2 = _
    rw [hfires.left, h.later hrange, h.taskDue hrange, ← taskTimers_succ h.armedPast, Multiset.cons_add,
      Multiset.add_assoc, Multiset.add_comm (Multiset.map AddedTimer.timer _), ← Multiset.add_assoc]
  · show Multiset.ofList (s.sent ++ r.2.1.map fun m => (s.tm.currentTick + 1, m)) = _
    rw [← Multiset.coe_add, h.sent, ← Multiset.map_coe, hnotices, filter_fired_succ, Multiset.map_add,
      Multiset.map_map, Multiset.map_map]
    congr 1
    refine Multiset.map_congr rfl fun a ha => ?_
    rw [AddedTimer.firing, (Multiset.mem_filter.mp ha).2]
    rfl
  · intro m hm
    rcases List.mem_append.mp hm with hm | hm
    · exact Nat.le_succ_of_le (h.sentPast m hm)
    · obtain ⟨notice, -, rfl⟩ := List.mem_map.mp hm
      exact Nat.le_refl _
  · refine List.pairwise_append.mpr ⟨h.inOrder, ?_, ?_⟩
    · exact List.pairwise_map.mpr (hfires.inOrder.imp fun hle => .inr ⟨rfl, hle⟩)
    · intro a ha b hb
      obtain ⟨notice, -, rfl⟩ := List.mem_map.mp hb
      exact .inl (Nat.lt_succ_of_le (h.sentPast a ha))
  · exact Nat.le_succ_of_le (h.armedPast start hstart)
  · have hswitch : r.1 = true ↔ SwitchTick s.armed (s.tm.currentTick + 1) := by
      rw [hfires.switch, ← exists_taskDue_iff h.armedPast]
      exact (or_iff_right (by decide)).trans (exists_mem_congr (h.taskDue hrange))
    show n ∈ (if r.1 then s.switches ++ [s.tm.currentTick + 1] else s.switches) ↔
      n ≤ s.tm.currentTick + 1 ∧ SwitchTick s.armed n
    by_cases hn : n = s.tm.currentTick + 1
    · have hnew : s.tm.currentTick + 1 ∉ s.switches := by
        intro hmem
        have := ((h.switches _).mp hmem).1
        omega
      rw [hn, ← hswitch]
      cases r.1 <;> simp [hnew]
    · have hold : n ∈ s.switches ↔ n ≤ s.tm.currentTick + 1 ∧ SwitchTick s.armed n := by
        rw [h.switches]
        exact and_congr_left fun _ => by omega
      rw [← hold]
      split
      · rw [List.mem_append, List.mem_singleton]
        exact or_iff_left hn
      · rfl

theorem Inv.step (h : s.Inv) (hguard : TickInRange s event) (hstep : TimerStep s event s') : s'.Inv := by
  cases hstep with
  | addTimer timer hvalue => exact h.addTimer hvalue
  | initializeTask harmed => exact h.initializeTask harmed
  | tick fuel switch notices tm hrun => exact h.tick hguard hrun

theorem Inv.of_reachable (h : Reachable (· = TimerRun.init) (GuardedStep TimerStep TickInRange) s) :
    s.Inv := by
  refine h.invariant ?_ ?_
  · rintro _ rfl
    exact Inv.init
  · rintro s s' hi ⟨event, hguard, hstep⟩
    exact hi.step hguard hstep

/-- A Tick comes to its end. -/
theorem Inv.terminates (h : s.Inv)
    (hrange : s.tm.currentTick + 1 + kTaskTimerPeriod ≤ unsignedLongMax) :
    ∃ fuel r, s.tm.tick fuel = some r := by
  have hwrap : s.tm.currentTick + 1 + kTaskTimerPeriod < 2 ^ 64 :=
    Nat.lt_of_le_of_lt hrange (by decide)
  have hnext : add64 s.tm.currentTick 1 = s.tm.currentTick + 1 :=
    Nat.mod_eq_of_lt (Nat.lt_of_le_of_lt (Nat.le_add_right _ _) hwrap)
  have hmem : sentinel ∈ Q.elems s.tm.timers := by
    rw [h.timers]
    exact Multiset.mem_cons_self _ _
  obtain ⟨fuel, r, hr⟩ : ∃ fuel r, tickLoop (s.tm.currentTick + 1) fuel s.tm.timers false = some r :=
    ⟨_, tickLoop_terminates hwrap false (sentinel_later hrange) hmem (Nat.lt_succ_self _)⟩
  refine ⟨fuel, (r.1, r.2.1, ⟨s.tm.currentTick + 1, r.2.2⟩), ?_⟩
  rw [TimerManager.tick, hnext, hr]
  rfl

end TimerRun

open TimerManager TimerRun

/-- **Every timer fires once, in its tick.**  The messages sent are those of the timers that are due, each
with its tick, its task, its timeout and its value; they are in order; the sentinel stays in the queue, so
that every Tick ends; and Tick returns true each period after the scheduler's timer has been armed. -/
theorem timers_fire_once {s : TimerRun Q}
    (h : Reachable (· = TimerRun.init) (GuardedStep TimerStep TickInRange) s) :
    (s.sent : Multiset (Nat × Nat × Message)) =
        (s.added.filter (AddedTimer.Fired s.tm.currentTick)).map AddedTimer.firing ∧
      s.sent.Pairwise InOrder ∧
      (sentinel ∈ Q.elems s.tm.timers ∧ (Q.top s.tm.timers).isSome) ∧
      (s.tm.currentTick + 1 + kTaskTimerPeriod ≤ unsignedLongMax → ∃ fuel r, s.tm.tick fuel = some r) ∧
      ∀ n, n ∈ s.switches ↔ n ≤ s.tm.currentTick ∧ SwitchTick s.armed n := by
  have hinv := Inv.of_reachable h
  have hmem : sentinel ∈ Q.elems s.tm.timers := by
    rw [hinv.timers]
    exact Multiset.mem_cons_self _ _
  obtain ⟨t, htop⟩ := Q.exists_top hmem
  refine ⟨hinv.sent, hinv.inOrder, ⟨hmem, ?_⟩, hinv.terminates, hinv.switches⟩
  rw [htop]
  rfl

/-- A queue that searches a list. -/
def timerQueue : PriorityQueue Timer Timer.less := listQueue Timer.timeout

/-- A timer of task 3 and the scheduler's timer, in two ticks. -/
theorem timers_fire_once_two_ticks :
    ∃ s : TimerRun timerQueue, s.sent = [(1, 3, .kTimerTimeout 1 7)] ∧ s.switches = [2] ∧
      (s.sent : Multiset (Nat × Nat × Message)) =
        (s.added.filter (AddedTimer.Fired s.tm.currentTick)).map AddedTimer.firing ∧
      (2 ∈ s.switches ↔ 2 ≤ s.tm.currentTick ∧ SwitchTick s.armed 2) := by
  have hrun : Reachable (· = TimerRun.init) (GuardedStep (TimerStep (Q := timerQueue)) TickInRange)
      TimerRun.init := .start rfl
  have hrun := hrun.next ⟨.addTimer ⟨1, 7, 3⟩, trivial, .addTimer ⟨1, 7, 3⟩ (by decide)⟩
  have hrun := hrun.next ⟨.initializeTask, trivial, .initializeTask rfl⟩
  have hrun := hrun.next ⟨.tick, show 0 + 1 + 2 ≤ 2 ^ 64 - 1 by decide, .tick 2 false [(3, .kTimerTimeout 1 7)] _ rfl⟩
  have hrun := hrun.next ⟨.tick, show 1 + 1 + 2 ≤ 2 ^ 64 - 1 by decide, .tick 2 true [] _ rfl⟩
  obtain ⟨hsent, -, -, -, hswitches⟩ := timers_fire_once hrun
  exact ⟨_, rfl, rfl, hsent, hswitches 2⟩

/-- The tick count stays below the maximum. -/
def BelowMax (s : TimerRun timerQueue) : TimerEvent → Prop
  | .tick => s.tm.currentTick + 1 < unsignedLongMax
  | _ => True

/-- A tick of a system in which nobody has set a timer. -/
theorem tick_idle {n : Nat} (hn : n + 1 < unsignedLongMax) :
    TimerManager.tick (Q := timerQueue) ⟨n, [sentinel]⟩ 1 = some (false, [], ⟨n + 1, [sentinel]⟩) := by
  have hnext : add64 n 1 = n + 1 :=
    Nat.mod_eq_of_lt (Nat.lt_trans hn (by decide))
  have hloop : tickLoop (Q := timerQueue) (n + 1) 1 [sentinel] false =
      some (false, [], [sentinel]) := if_pos hn
  rw [TimerManager.tick, hnext, hloop]
  rfl

theorem reachable_idle (n : Nat) (hn : n < unsignedLongMax) :
    Reachable (· = TimerRun.init) (GuardedStep TimerStep BelowMax)
      ⟨⟨n, [sentinel]⟩, 0, none, [], []⟩ := by
  induction n with
  | zero => exact .start rfl
  | succ n ih => exact (ih (by omega)).next ⟨.tick, hn, .tick 1 false [] _ (tick_idle hn)⟩

/-- A task timer that has wrapped around is due again as soon as it is back in the queue. -/
theorem tickLoop_wrapped (fuel : Nat) (taskTimerTimeout : Bool) :
    tickLoop (Q := timerQueue) (2 ^ 64 - 2) fuel [taskTimer 0, sentinel] taskTimerTimeout = none := by
  induction fuel generalizing taskTimerTimeout with
  | zero => rfl
  | succ fuel ih => exact ih true

/-- At the tick before the last one the period no longer fits: the scheduler's timer wraps around, and the
loop of that Tick never ends. -/
theorem tick_never_ends :
    ∃ s, Reachable (· = TimerRun.init) (GuardedStep TimerStep BelowMax) s ∧
      s.tm.currentTick + 1 < unsignedLongMax ∧ ∀ fuel, s.tm.tick fuel = none := by
  have hrun := reachable_idle (2 ^ 64 - 4) (by decide)
  have hrun := hrun.next ⟨.initializeTask, trivial, .initializeTask rfl⟩
  have hrun := hrun.next ⟨.tick, show 2 ^ 64 - 4 + 1 < 2 ^ 64 - 1 by decide, .tick 1 false [] _ rfl⟩
  refine ⟨_, hrun, show 2 ^ 64 - 3 + 1 < 2 ^ 64 - 1 by decide, fun fuel => ?_⟩
  cases fuel with
  | zero => rfl
  | succ fuel => exact congrArg (Option.map _) (tickLoop_wrapped fuel true)

end MikanSaos
