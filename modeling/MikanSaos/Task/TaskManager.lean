import MikanSaos.Error
import MikanSaos.Task.Message
import Mathlib.Logic.Function.Basic

/-!
# TaskManager — tasks, run queues and mailboxes

A `Task*` is written as the id of the task it points to; ids are never given twice, so that a pointer
to a destroyed task names no other task.  `task` is the memory of the `Task` objects, destroyed ones
included, and `tasks` lists the living ones.  An operation is `none` where the code takes the front of
an empty queue.
-/

namespace MikanSaos

def kDefaultLevel : Nat := 1
def kMaxLevel : Nat := 3

structure Task where
  level : Nat := kDefaultLevel
  readyOrRunning : Bool := false
  msgs : List Message := []

structure TaskManager where
  tasks : List Nat
  task : Nat → Task
  lastId : Nat
  running : Nat → List Nat
  currentLevel : Nat
  levelChanged : Bool
  finishTasks : Nat → Option Int
  finishWaiter : Nat → Option Nat

namespace TaskManager

def setTask (tm : TaskManager) (task : Nat) (t : Task) : TaskManager :=
  { tm with task := Function.update tm.task task t }

def setLevel (tm : TaskManager) (task level : Nat) : TaskManager :=
  tm.setTask task { tm.task task with level := level }

def setReadyOrRunning (tm : TaskManager) (task : Nat) (readyOrRunning : Bool) : TaskManager :=
  tm.setTask task { tm.task task with readyOrRunning := readyOrRunning }

def setMsgs (tm : TaskManager) (task : Nat) (msgs : List Message) : TaskManager :=
  tm.setTask task { tm.task task with msgs := msgs }

def setQueue (tm : TaskManager) (level : Nat) (queue : List Nat) : TaskManager :=
  { tm with running := Function.update tm.running level queue }

def newTask (tm : TaskManager) : Nat × TaskManager :=
  let id := tm.lastId + 1
  (id, { tm with tasks := tm.tasks ++ [id], task := Function.update tm.task id {}, lastId := id })

/-- The constructor: the main task runs at the highest level, the idle task waits at level 0. -/
def init : TaskManager :=
  let tm : TaskManager := ⟨[], fun _ => {}, 0, fun _ => [], kMaxLevel, false, fun _ => none,
    fun _ => none⟩
  let (mainTask, tm) := tm.newTask
  let tm := (tm.setLevel mainTask tm.currentLevel).setReadyOrRunning mainTask true
  let tm := tm.setQueue tm.currentLevel (tm.running tm.currentLevel ++ [mainTask])
  let (idleTask, tm) := tm.newTask
  let tm := (tm.setLevel idleTask 0).setReadyOrRunning idleTask true
  tm.setQueue 0 (tm.running 0 ++ [idleTask])

/-- The task that the constructor runs `TaskIdle` in. -/
def idleId : Nat := 2

def currentTask (tm : TaskManager) : Option Nat := (tm.running tm.currentLevel).head?

/-- `Erase(_runnning[level], task)`: `std::remove` drops every occurrence. -/
def eraseFrom (tm : TaskManager) (level task : Nat) : TaskManager :=
  tm.setQueue level ((tm.running level).filter (· ≠ task))

/-- `for (lv = kMaxLevel; lv >= 0; lv--)` up to the first queue that is not empty. -/
def highestLevel (running : Nat → List Nat) : Nat → Option Nat
  | 0 => if (running 0).isEmpty then none else some 0
  | lv + 1 => if (running (lv + 1)).isEmpty then highestLevel running lv else some (lv + 1)

/-- The end of `RotateCurrentRunQueue`: leave an emptied level, and look for a better one if a
level has changed. -/
def reselectLevel (tm : TaskManager) : TaskManager :=
  let levelChanged := tm.levelChanged || (tm.running tm.currentLevel).isEmpty
  if levelChanged then
    { tm with levelChanged := false,
              currentLevel := (highestLevel tm.running kMaxLevel).getD tm.currentLevel }
  else { tm with levelChanged := levelChanged }

def rotateCurrentRunQueue (tm : TaskManager) (currentSleep : Bool) : Option (Nat × TaskManager) :=
  match tm.running tm.currentLevel with
  | [] => none
  | currentTask :: rest =>
    let queue := if currentSleep then rest else rest ++ [currentTask]
    some (currentTask, (tm.setQueue tm.currentLevel queue).reselectLevel)

/-- `SwitchTask` without the processor context it saves and restores. -/
def switchTask (tm : TaskManager) : Option TaskManager :=
  (tm.rotateCurrentRunQueue false).map Prod.snd

def sleep (tm : TaskManager) (task : Nat) : Option TaskManager :=
  if (tm.task task).readyOrRunning then
    let tm := tm.setReadyOrRunning task false
    match tm.currentTask with
    | none => none
    | some front =>
      if task = front then (tm.rotateCurrentRunQueue true).map Prod.snd
      else some (tm.eraseFrom (tm.task task).level task)
  else some tm

def changeLevelRunning (tm : TaskManager) (task : Nat) (level : Int) : Option TaskManager :=
  if level < 0 ∨ level = (tm.task task).level then some tm
  else
    let level := level.toNat
    match tm.currentTask with
    | none => none
    | some front =>
      let tm :=
        if task ≠ front then
          let tm := tm.eraseFrom (tm.task task).level task
          let tm := tm.setQueue level (tm.running level ++ [task])
          let tm := tm.setLevel task level
          if tm.currentLevel < level then { tm with levelChanged := true } else tm
        else tm
      -- the source does not return here, so the next lines run in both cases
      let tm := tm.setQueue tm.currentLevel (tm.running tm.currentLevel).tail
      let tm := tm.setQueue level (task :: tm.running level)
      let tm := tm.setLevel task level
      if tm.currentLevel ≤ level then some { tm with currentLevel := level }
      else some { tm with currentLevel := level, levelChanged := true }

/-- `Wakeup(task, level)`; the default level is -1. -/
def wakeup (tm : TaskManager) (task : Nat) (level : Int := -1) : Option TaskManager :=
  if (tm.task task).readyOrRunning then tm.changeLevelRunning task level
  else
    let level := if level < 0 then (tm.task task).level else level.toNat
    let tm := (tm.setLevel task level).setReadyOrRunning task true
    let tm := tm.setQueue level (tm.running level ++ [task])
    some (if tm.currentLevel < level then { tm with levelChanged := true } else tm)

/-- `Task::SendMessage`. -/
def taskSendMessage (tm : TaskManager) (task : Nat) (msg : Message) : Option TaskManager :=
  (tm.setMsgs task ((tm.task task).msgs ++ [msg])).wakeup task

/-- `Task::ReceiveMessage`. -/
def taskReceiveMessage (tm : TaskManager) (task : Nat) : Option Message × TaskManager :=
  match (tm.task task).msgs with
  | [] => (none, tm)
  | m :: msgs => (some m, tm.setMsgs task msgs)

/-- The operations on an id look the id up among the living tasks and report `kNoSuchTask`. -/
def withTaskId (tm : TaskManager) (id : Nat) (op : Nat → Option TaskManager) :
    Option (Error × TaskManager) :=
  match tm.tasks.find? (· == id) with
  | none => some (.kNoSuchTask, tm)
  | some task => (op task).map fun tm => (.kSuccess, tm)

def sleepId (tm : TaskManager) (id : Nat) : Option (Error × TaskManager) :=
  tm.withTaskId id tm.sleep

def wakeupId (tm : TaskManager) (id : Nat) (level : Int := -1) : Option (Error × TaskManager) :=
  tm.withTaskId id (tm.wakeup · level)

def sendMessage (tm : TaskManager) (id : Nat) (msg : Message) : Option (Error × TaskManager) :=
  tm.withTaskId id (tm.taskSendMessage · msg)

/-- `_tasks.erase(it)` and `_finish_tasks[task_id] = exit_code`. -/
def removeFinished (tm : TaskManager) (taskId : Nat) (exitCode : Int) : TaskManager :=
  { tm with tasks := tm.tasks.erase taskId,
            finishTasks := Function.update tm.finishTasks taskId (some exitCode) }

def setWaiter (tm : TaskManager) (taskId : Nat) (waiter : Option Nat) : TaskManager :=
  { tm with finishWaiter := Function.update tm.finishWaiter taskId waiter }

/-- `Finish` without the final `RestoreContext`. -/
def finish (tm : TaskManager) (exitCode : Int) : Option TaskManager :=
  match tm.rotateCurrentRunQueue true with
  | none => none
  | some (taskId, tm) =>
    let tm := tm.removeFinished taskId exitCode
    match tm.finishWaiter taskId with
    | some waiter => (tm.setWaiter taskId none).wakeup waiter
    | none => some tm

/-- One round of the loop in `WaitFinish`: either the exit code is there, or the calling task
registers itself and goes to sleep. -/
def waitFinishRound (tm : TaskManager) (currentTask taskId : Nat) :
    Option (Option Int × TaskManager) :=
  match tm.finishTasks taskId with
  | some exitCode =>
    some (some exitCode, { tm with finishTasks := Function.update tm.finishTasks taskId none })
  | none =>
    ((tm.setWaiter taskId (some currentTask)).sleep currentTask).map fun tm => (none, tm)

end TaskManager

end MikanSaos
