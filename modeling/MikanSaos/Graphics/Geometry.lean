/-! Points and rectangles on the screen. -/

namespace MikanSaos

structure Vector2D where
  x : Int
  y : Int
  deriving DecidableEq, Repr

namespace Vector2D

instance : Add Vector2D := ⟨fun lhs rhs => ⟨lhs.x + rhs.x, lhs.y + rhs.y⟩⟩
instance : Sub Vector2D := ⟨fun lhs rhs => ⟨lhs.x - rhs.x, lhs.y - rhs.y⟩⟩

@[simp] theorem add_x (p q : Vector2D) : (p + q).x = p.x + q.x := rfl
@[simp] theorem add_y (p q : Vector2D) : (p + q).y = p.y + q.y := rfl
@[simp] theorem sub_x (p q : Vector2D) : (p - q).x = p.x - q.x := rfl
@[simp] theorem sub_y (p q : Vector2D) : (p - q).y = p.y - q.y := rfl

@[ext] theorem ext {p q : Vector2D} (hx : p.x = q.x) (hy : p.y = q.y) : p = q := by
  cases p
  cases q
  cases hx
  cases hy
  rfl

def elementMax (lhs rhs : Vector2D) : Vector2D := ⟨max lhs.x rhs.x, max lhs.y rhs.y⟩
def elementMin (lhs rhs : Vector2D) : Vector2D := ⟨min lhs.x rhs.x, min lhs.y rhs.y⟩

end Vector2D

structure Rectangle where
  pos : Vector2D
  size : Vector2D
  deriving DecidableEq, Repr

namespace Rectangle

/-- `operator&`: rectangles that only touch give one without pixels that is not at `{0, 0}`. -/
def inter (lhs rhs : Rectangle) : Rectangle :=
  let lhsEndPos := lhs.pos + lhs.size
  let rhsEndPos := rhs.pos + rhs.size
  if lhsEndPos.x < rhs.pos.x ∨ lhs.pos.x > rhsEndPos.x ∨
      lhsEndPos.y < rhs.pos.y ∨ lhs.pos.y > rhsEndPos.y then
    ⟨⟨0, 0⟩, ⟨0, 0⟩⟩
  else
    let newPos := lhs.pos.elementMax rhs.pos
    ⟨newPos, lhsEndPos.elementMin rhsEndPos - newPos⟩

/-- `pos` is one of the pixels of the rectangle. -/
def Contains (r : Rectangle) (pos : Vector2D) : Prop :=
  (r.pos.x ≤ pos.x ∧ pos.x < r.pos.x + r.size.x) ∧ r.pos.y ≤ pos.y ∧ pos.y < r.pos.y + r.size.y

instance (r : Rectangle) (pos : Vector2D) : Decidable (r.Contains pos) :=
  inferInstanceAs (Decidable (_ ∧ _))

/-- The sizes that `size_t` can count. -/
def Sized (r : Rectangle) : Prop := 0 ≤ r.size.x ∧ 0 ≤ r.size.y

variable {r r' : Rectangle} {p : Vector2D}

theorem contains_inter : (r.inter r').Contains p ↔ r.Contains p ∧ r'.Contains p := by
  unfold inter Contains Vector2D.elementMax Vector2D.elementMin
  dsimp only [Vector2D.add_x, Vector2D.add_y]
  split
  · dsimp only
    omega
  · dsimp only [Vector2D.sub_x, Vector2D.sub_y]
    omega

/-- No operation on two rectangles makes a negative size. -/
theorem Sized.inter (h : r.Sized) (h' : r'.Sized) : (r.inter r').Sized := by
  unfold Sized at *
  unfold Rectangle.inter Vector2D.elementMax Vector2D.elementMin
  dsimp only [Vector2D.add_x, Vector2D.add_y]
  split
  · exact ⟨Int.le_refl 0, Int.le_refl 0⟩
  · dsimp only [Vector2D.sub_x, Vector2D.sub_y]
    omega

theorem not_contains_of_size (h : r.size.x = 0 ∨ r.size.y = 0) : ¬ r.Contains p := by
  unfold Contains
  omega

end Rectangle

end MikanSaos
