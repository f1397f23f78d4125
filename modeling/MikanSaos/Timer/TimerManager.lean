import MikanSaos.Reasoning.PriorityQueue
import MikanSaos.Task.Message
import MikanSaos.Word64

/-!
# TimerManager — the timers, and what one timer interrupt does

`Q` stands for `std::priority_queue<Timer>`.  `Tick` gives its messages as the arguments of the calls
of `SendMessage`, in their order.
-/

open Reasoning

namespace MikanSaos

def kTimerFreq : Nat := 100

/-- `static_cast<int>(kTimerFreq * 0.02)` -/
def kTaskTimerPeriod : Nat := 2

/-- `std::numeric_limits<int>::min()` -/
def kTaskTimerValue : Int := -2 ^ 31

/-- `std::numeric_limits<unsigned long>::max()` -/
def unsignedLongMax : Nat := 2 ^ 64 - 1

structure Timer where
  timeout : Nat
  value : Int
  taskId : Nat
  deriving DecidableEq

/-- `operator<`: the timer that runs out first is the greatest. -/
def Timer.less (lhs rhs : Timer) : Prop := lhs.timeout > rhs.timeout

structure TimerManager (Q : PriorityQueue Timer Timer.less) where
  currentTick : Nat
  timers : Q.Carrier

namespace TimerManager

variable {Q : PriorityQueue Timer Timer.less}

/-- The timer that the constructor adds, so that the queue is never empty. -/
def sentinel : Timer := ⟨unsignedLongMax, 0, 0⟩

def init : TimerManager Q := ⟨0, Q.push Q.empty sentinel⟩

def addTimer (m : TimerManager Q) (timer : Timer) : TimerManager Q :=
  { m with timers := Q.push m.timers timer }

/-- The scheduler's timer as `Tick` puts it back. -/
def taskTimer (timeout : Nat) : Timer := ⟨timeout, kTaskTimerValue, 1⟩

/-- The loop of `Tick`: what it returns, the messages it sends, and the timers it leaves.  It is `none`
where the rounds do not suffice, and where there is no top. -/
def tickLoop (tick : Nat) : Nat → Q.Carrier → Bool → Option (Bool × List (Nat × Message) × Q.Carrier)
  | 0, _, _ => none
  | fuel + 1, timers, taskTimerTimeout =>
    match Q.top timers with
    | none => none
    | some t =>
      if t.timeout > tick then some (taskTimerTimeout, [], timers)
      else if t.value = kTaskTimerValue then
        tickLoop tick fuel (Q.push (Q.pop timers) (taskTimer (add64 tick kTaskTimerPeriod))) true
      else
        (tickLoop tick fuel (Q.pop timers) taskTimerTimeout).map fun r =>
          (r.1, (t.taskId, .kTimerTimeout t.timeout t.value) :: r.2.1, r.2.2)

def tick (m : TimerManager Q) (fuel : Nat) :
    Option (Bool × List (Nat × Message) × TimerManager Q) :=
  let tick := add64 m.currentTick 1
  (tickLoop tick fuel m.timers false).map fun r => (r.1, r.2.1, ⟨tick, r.2.2⟩)

end TimerManager

end MikanSaos
