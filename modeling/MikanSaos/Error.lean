/-! The error codes of the kernel and of its system calls, and a result paired with one. -/

namespace MikanSaos

inductive Error where
  | kSuccess | kFull | kEmpty | kIndexOutOfRange | kNoEnoughMemory | kNotImplemented
  | kTransferRingNotSet | kInvalidPhase | kInvalidSlotID | kAlreadyAllocated | kInvalidDescriptor
  | kInvalidEndpointNumber | kTransferFailed | kNoCorrespondingSetupStage | kNoWaiter
  | kUnknownXHCISpeedID | kNoPCIMSI | kUnknownPixelFormat | kNoSuchTask | kInvalidFormat
  | kInvalidFormatLA | kFrameTooSmall | kInvalidFile | kIsDirectory | kNoSuchEntry
  | kIsNotDirectory | kFreeTypeError
  deriving DecidableEq, Repr

/-- A value next to the error of the call that made it. -/
structure WithError (α : Type) where
  value : α
  error : Error
  deriving DecidableEq, Repr

/-! Values of `errno`. -/

def EBADF : Nat := 9
def EFAULT : Nat := 14

end MikanSaos
