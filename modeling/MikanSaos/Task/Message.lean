/-! The messages tasks send each other. -/

namespace MikanSaos

inductive LayerOperation where
  | move | moveRelative | draw | drawArea
  deriving DecidableEq, Repr

/-- A message: its type, with the arm of the union that the type selects. -/
inductive Message where
  | kEmpty
  | kInterruptXHCI
  | kInterruptLAPICTimer
  | kTimerTimeout (timeout : Nat) (value : Int)
  | kKeyPush (modifier keycode ascii : UInt8) (press : Int)
  | kLayerOps (op : LayerOperation) (layerId : Nat) (x y w h : Int)
  | kLayerOpsFinish
  | kMouseMove (x y dx dy : Int) (buttons : UInt8)
  | kMouseButton (x y press button : Int)
  | kWindowActive (activate : Int)
  /-- The first `len` of the 16 bytes of `data`. -/
  | kPipe (data : List UInt8)
  | kWindowClose (layerId : Nat)
  deriving DecidableEq, Repr

end MikanSaos
