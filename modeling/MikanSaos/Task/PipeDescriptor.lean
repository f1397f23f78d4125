import MikanSaos.Task.TaskManager

/-!
# PipeDescriptor — a byte stream over the mailbox of the reading task

`data` holds the first `_len` bytes of `_data`, the part of the last message that `Read` has not
returned yet.  The loops of `Read` and `Write` let other tasks run between their rounds, so that one
round is one definition here.
-/

namespace MikanSaos

/-- `sizeof(msg.arg.pipe.data)` -/
def kPipeBytes : Nat := 16

structure PipeDescriptor where
  task : Nat
  data : List UInt8 := []
  closed : Bool := false

namespace PipeDescriptor

/-- `Read` of a received message: the bytes it returns, if the message makes it return. -/
def readMessage (fd : PipeDescriptor) (len : Nat) : Message → Option (List UInt8) × PipeDescriptor
  | .kPipe [] => (some [], { fd with closed := true })
  | .kPipe data => (some (data.take len), { fd with data := data.drop len })
  | _ => (none, fd)

/-- One round of `Read`. -/
def readRound (fd : PipeDescriptor) (tm : TaskManager) (len : Nat) :
    Option (Option (List UInt8) × PipeDescriptor × TaskManager) :=
  if fd.data ≠ [] then
    some (some (fd.data.take len), { fd with data := fd.data.drop len }, tm)
  else if fd.closed then some (some [], fd, tm)
  else
    match tm.taskReceiveMessage fd.task with
    | (none, tm) => (tm.sleep fd.task).map fun tm => (none, fd, tm)
    | (some msg, tm) => some ((fd.readMessage len msg).1, (fd.readMessage len msg).2, tm)

/-- One round of `Write`: send what fits in a message; the rest is still to be sent. -/
def writeRound (fd : PipeDescriptor) (tm : TaskManager) (pending : List UInt8) :
    Option (List UInt8 × TaskManager) :=
  (tm.taskSendMessage fd.task (.kPipe (pending.take kPipeBytes))).map fun tm =>
    (pending.drop kPipeBytes, tm)

def finishWrite (fd : PipeDescriptor) (tm : TaskManager) : Option TaskManager :=
  tm.taskSendMessage fd.task (.kPipe [])

end PipeDescriptor

end MikanSaos
