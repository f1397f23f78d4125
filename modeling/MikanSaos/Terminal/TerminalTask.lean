import MikanSaos.App.PointerArguments
import MikanSaos.Reasoning.Reach
import MikanSaos.Task.Mailbox
import MikanSaos.Timer.TimerRun

/-!
# TerminalTask — the loop of a terminal, and the applications that run in it

A step is what the source does with interrupts disabled, so that the timer interrupt, the scheduler and the tasks
come in any order.  `activity` says where in `TaskTerminal` a task is, and is `none` for every other task.
-/

open Reasoning

namespace MikanSaos

/-- The system call of an application in which it takes messages out of a mailbox. -/
inductive AppCall where
  | readEvent (len : Nat) (events : List AppEvent)
  /-- `Read` of the file descriptor of a terminal, which need not be the one that the application runs in. -/
  | read (terminal : Nat)

/-- The application has just made the call. -/
def AppCall.Starts : AppCall → Prop
  | readEvent _ events => events = []
  | read _ => True

inductive Activity where
  /-- Before the first `add_blink_timer`: the command line of the `TerminalDescriptor`. -/
  | command (call : Option AppCall)
  /-- At the head of the loop. -/
  | waiting
  /-- A `kTimerTimeout` has been received. -/
  | timerTimeout (timeout : Nat) (value : Int)
  /-- In `InputKey`, where a command or an application may run. -/
  | inputKey (call : Option AppCall)
  /-- A `kWindowClose` has been received. -/
  | windowClose

namespace Activity

/-- The first `add_blink_timer` is over. -/
def InLoop : Activity → Prop
  | command _ => False
  | _ => True

/-- An application runs, and is in `call`. -/
def call : Activity → Option AppCall
  | command call => call
  | inputKey call => call
  | _ => none

/-- An application runs, outside of these calls. -/
def Running : Activity → Prop
  | command none => True
  | inputKey none => True
  | _ => False

def setCall : Activity → Option AppCall → Activity
  | command _, call => command call
  | inputKey _, call => inputKey call
  | a, _ => a

/-- The `switch` of the loop. -/
def receive : Message → Activity
  | .kTimerTimeout timeout value => timerTimeout timeout value
  | .kKeyPush _ _ _ press => if press = 0 then waiting else inputKey none
  | .kWindowClose _ => windowClose
  | _ => waiting

end Activity

/-- `static_cast<int>(kTimerFreq * 0.5)` -/
def kBlinkPeriod : Nat := 50

/-- The timer that `add_blink_timer(t)` adds. -/
def blinkTimer (taskId t : Nat) : Timer := ⟨add64 t kBlinkPeriod, 1, taskId⟩

/-- One round of `TerminalFileDescriptor::Read`: what it returns, if it does. -/
def TaskManager.terminalReadRound (tm : TaskManager) (terminal : Nat) :
    Option (Option (List UInt8) × TaskManager) :=
  match tm.taskReceiveMessage terminal with
  | (none, tm) => (tm.sleep terminal).map fun tm => (none, tm)
  | (some msg, tm) => some (terminalRead [some msg], tm)

variable {Q : PriorityQueue Timer Timer.less}

structure TerminalSystem (Q : PriorityQueue Timer Timer.less) where
  tm : TaskManager
  timers : TimerManager Q
  activity : Nat → Option Activity

namespace TerminalSystem

def init : TerminalSystem Q := ⟨.init, .init, fun _ => none⟩

def setActivity (s : TerminalSystem Q) (t : Nat) (a : Option Activity) : TerminalSystem Q :=
  { s with activity := Function.update s.activity t a }

/-- The calls of `SendMessage` that `Tick` makes. -/
def deliver (tm : TaskManager) : List (Nat × Message) → Option TaskManager
  | [] => some tm
  | m :: notices => ((SchedulerCall.sendMessage m.1 m.2).run tm).bind fun tm => deliver tm notices

/-- Only `Tick` sends `kTimerTimeout`, and `Finish` is an event of its own. -/
def Allowed : SchedulerCall → Prop
  | .sendMessage _ (.kTimerTimeout _ _) => False
  | .finish _ => False
  | _ => True

end TerminalSystem

inductive TerminalEvent where
  | tick
  | call (c : SchedulerCall)
  | waitFinish (t id : Nat)
  | otherReceive (t : Nat)
  | otherTimer (timer : Timer)
  | otherFinish (t : Nat) (exitCode : Int)
  | openTerminal
  | startLoop (t : Nat)
  | receive (t : Nat)
  | addBlinkTimer (t : Nat)
  | inputDone (t : Nat)
  | finish (t : Nat) (exitCode : Int)
  | createTimer (t timeout : Nat) (timerValue : Int)
  | callRead (t : Nat) (call : AppCall)
  | readEvent (t : Nat)
  | read (t terminal : Nat)

open TerminalSystem

/-- One step.  `otherReceive`, `otherTimer` and `otherFinish` are what tasks do that are no terminals. -/
inductive TerminalStep (s : TerminalSystem Q) : TerminalEvent → TerminalSystem Q → Prop
  | tick (fuel : Nat) (switch : Bool) (notices : List (Nat × Message)) (timers : TimerManager Q) (tm : TaskManager)
      (htick : s.timers.tick fuel = some (switch, notices, timers)) (hsend : deliver s.tm notices = some tm) :
      TerminalStep s .tick { s with tm := tm, timers := timers }
  | call (c : SchedulerCall) (tm : TaskManager) (hallowed : Allowed c) (hrun : c.run s.tm = some tm) :
      TerminalStep s (.call c) { s with tm := tm }
  | waitFinish (t id : Nat) (exitCode : Option Int) (tm : TaskManager) (hcur : s.tm.currentTask = some t)
      (hrun : s.tm.waitFinishRound t id = some (exitCode, tm)) :
      TerminalStep s (.waitFinish t id) { s with tm := tm }
  | otherReceive (t : Nat) (hother : s.activity t = none) :
      TerminalStep s (.otherReceive t) { s with tm := (s.tm.taskReceiveMessage t).2 }
  | otherTimer (timer : Timer) (hlive : timer.taskId ∈ s.tm.tasks) (hother : s.activity timer.taskId = none) :
      TerminalStep s (.otherTimer timer) { s with timers := s.timers.addTimer timer }
  | otherFinish (t : Nat) (exitCode : Int) (tm : TaskManager) (hcur : s.tm.currentTask = some t)
      (hother : s.activity t = none) (hrun : s.tm.finish exitCode = some tm) :
      TerminalStep s (.otherFinish t exitCode) { s with tm := tm }
  | openTerminal :
      TerminalStep s .openTerminal
        ({ s with tm := s.tm.newTask.2 }.setActivity s.tm.newTask.1 (some (.command none)))
  | startLoop (t : Nat) (hcur : s.tm.currentTask = some t) (ha : s.activity t = some (.command none)) :
      TerminalStep s (.startLoop t)
        ({ s with timers := s.timers.addTimer (blinkTimer t s.timers.currentTick) }.setActivity t (some .waiting))
  | receive (t : Nat) (msg : Message) (tm : TaskManager) (hcur : s.tm.currentTask = some t)
      (ha : s.activity t = some .waiting) (hrun : s.tm.taskReceiveMessage t = (some msg, tm)) :
      TerminalStep s (.receive t) ({ s with tm := tm }.setActivity t (some (.receive msg)))
  | receiveSleep (t : Nat) (tm tm' : TaskManager) (hcur : s.tm.currentTask = some t)
      (ha : s.activity t = some .waiting) (hrun : s.tm.taskReceiveMessage t = (none, tm))
      (hsleep : tm.sleep t = some tm') :
      TerminalStep s (.receive t) { s with tm := tm' }
  | addBlinkTimer (t timeout : Nat) (value : Int) (hcur : s.tm.currentTask = some t)
      (ha : s.activity t = some (.timerTimeout timeout value)) :
      TerminalStep s (.addBlinkTimer t)
        ({ s with timers := s.timers.addTimer (blinkTimer t timeout) }.setActivity t (some .waiting))
  | inputDone (t : Nat) (hcur : s.tm.currentTask = some t) (ha : s.activity t = some (.inputKey none)) :
      TerminalStep s (.inputDone t) (s.setActivity t (some .waiting))
  | finish (t : Nat) (exitCode : Int) (tm : TaskManager) (hcur : s.tm.currentTask = some t)
      (ha : s.activity t = some (.command none) ∨ s.activity t = some .windowClose)
      (hrun : s.tm.finish exitCode = some tm) :
      TerminalStep s (.finish t exitCode) ({ s with tm := tm }.setActivity t none)
  | createTimer (t timeout : Nat) (timerValue : Int) (a : Activity) (hcur : s.tm.currentTask = some t)
      (ha : s.activity t = some a) (hrunning : a.Running) (hvalue : 0 < timerValue) :
      TerminalStep s (.createTimer t timeout timerValue)
        { s with timers := s.timers.addTimer ⟨timeout, -timerValue, t⟩ }
  | callRead (t : Nat) (call : AppCall) (a : Activity) (hcur : s.tm.currentTask = some t)
      (ha : s.activity t = some a) (hrunning : a.Running) (hstarts : call.Starts) :
      TerminalStep s (.callRead t call) (s.setActivity t (some (a.setCall (some call))))
  | readEvent (t len : Nat) (events : List AppEvent) (a : Activity) (state : ReadEventState) (tm : TaskManager)
      (hcur : s.tm.currentTask = some t) (ha : s.activity t = some a) (hcall : a.call = some (.readEvent len events))
      (hrun : s.tm.readEventRound t len events = some (state, tm)) :
      TerminalStep s (.readEvent t) ({ s with tm := tm }.setActivity t (some (a.setCall (match state with
        | .reading events => some (.readEvent len events)
        | .returned _ => none))))
  | read (t terminal : Nat) (a : Activity) (result : Option (List UInt8)) (tm : TaskManager)
      (hcur : s.tm.currentTask = some t) (ha : s.activity t = some a) (hcall : a.call = some (.read terminal))
      (hrun : s.tm.terminalReadRound terminal = some (result, tm)) :
      TerminalStep s (.read t terminal) ({ s with tm := tm }.setActivity t (some (a.setCall (match result with
        | none => some (.read terminal)
        | some _ => none))))

end MikanSaos
