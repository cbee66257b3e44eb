import Mechanism.Axis

/-!
Points and offsets in the motion plane of a rotation axis.
-/

namespace Mechanism

structure PlanePoint (κ : Type) [Scalar κ] where
  x : Expr κ
  y : Expr κ

namespace PlanePoint

variable {κ : Type} [Scalar κ]

/-- The components of an offset in space that lie in the plane of an axis. -/
def project (axis : Axis) (offset : Tensor κ) : Except AlgebraError (PlanePoint κ) := do
  let x ← offset.entryAt axis.plane.1
  let y ← offset.entryAt axis.plane.2
  return ⟨x, y⟩

def add (p q : PlanePoint κ) : PlanePoint κ := ⟨p.x + q.x, p.y + q.y⟩

def sub (p q : PlanePoint κ) : PlanePoint κ := ⟨p.x - q.x, p.y - q.y⟩

instance : Add (PlanePoint κ) := ⟨add⟩
instance : Sub (PlanePoint κ) := ⟨sub⟩

def scale (p : PlanePoint κ) (factor : Expr κ) : PlanePoint κ := ⟨p.x * factor, p.y * factor⟩

def dot (p q : PlanePoint κ) : Expr κ := p.x * q.x + p.y * q.y

def lengthSquared (p : PlanePoint κ) : Expr κ := p.dot p

def length (p : PlanePoint κ) : Expr κ := p.lengthSquared.squareRoot

def angle (p : PlanePoint κ) : Expr κ := .angleOf p.y p.x

def rotate (p : PlanePoint κ) (angle : Expr κ) : PlanePoint κ :=
  let c := angle.cos
  let s := angle.sin
  ⟨p.x * c - p.y * s, p.x * s + p.y * c⟩

def perpendicular (p : PlanePoint κ) : PlanePoint κ := ⟨-p.y, p.x⟩

end PlanePoint

structure Circle (κ : Type) [Scalar κ] where
  center : PlanePoint κ
  radius : Expr κ

/-- The intersection of two circles on the left of the line from the first center to the second
for a positive sign, and on its right for a negative one. -/
def Circle.intersection {κ : Type} [Scalar κ] (first second : Circle κ) (sign : κ) : PlanePoint κ :=
  let between := second.center - first.center
  let distanceSquared := between.lengthSquared
  let distance := distanceSquared.squareRoot
  let along :=
    (first.radius.square - second.radius.square + distanceSquared) /
      (Expr.integer 2 * distance)
  let height := (first.radius.square - along.square).squareRoot
  first.center + between.scale (along / distance) +
    between.perpendicular.scale (Expr.number sign * (height / distance))

end Mechanism
