import MikanSaos.Task.TaskManager

/-!
# ReadEvent — the system call by which an application takes messages out of its mailbox

The pointer check and the copy into the application's array are left out: `events` are the entries
that the call has filled.
-/

namespace MikanSaos

def kLControlBitMask : UInt8 := 0b00000001
def kRControlBitMask : UInt8 := 0b00010000

inductive AppEvent where
  | kQuit
  | kMouseMove (x y dx dy : Int) (buttons : UInt8)
  | kMouseButton (x y press button : Int)
  | kTimerTimeout (timeout : Nat) (value : Int)
  | kKeyPush (modifier keycode ascii : UInt8) (press : Int)
  deriving DecidableEq, Repr

/-- The `switch` of `ReadEvent`: the entry that a message fills, if it fills one. -/
def appEvent : Message → Option AppEvent
  | .kKeyPush modifier keycode ascii press =>
    -- ctrl + q
    if press ≠ 0 ∧ keycode = 20 ∧ modifier &&& (kLControlBitMask ||| kRControlBitMask) ≠ 0 then
      some .kQuit
    else some (.kKeyPush modifier keycode ascii press)
  | .kMouseMove x y dx dy buttons => some (.kMouseMove x y dx dy buttons)
  | .kMouseButton x y press button => some (.kMouseButton x y press button)
  | .kTimerTimeout timeout value => if value < 0 then some (.kTimerTimeout timeout (-value)) else none
  | .kWindowClose _ => some .kQuit
  -- uncaught event type
  | _ => none

inductive ReadEventState where
  | reading (events : List AppEvent)
  | returned (events : List AppEvent)
  deriving DecidableEq, Repr

/-- One round of the loop of `ReadEvent(events, len)` by `task`. -/
def TaskManager.readEventRound (tm : TaskManager) (task len : Nat) (events : List AppEvent) :
    Option (ReadEventState × TaskManager) :=
  if events.length < len then
    match tm.taskReceiveMessage task with
    | (none, tm) =>
      if events.isEmpty then (tm.sleep task).map fun tm => (.reading events, tm)
      else some (.returned events, tm)
    | (some msg, tm) => some (.reading (events ++ (appEvent msg).toList), tm)
  else some (.returned events, tm)

end MikanSaos
