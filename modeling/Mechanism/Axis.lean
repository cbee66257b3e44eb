import Mechanism.Tensor.Algebra

/-!
The coordinate axes of space: unit directions, the plane that a rotation turns, and rotation
matrices.
-/

namespace Mechanism

inductive Axis where
  | x | y | z
  deriving DecidableEq, Repr

namespace Axis

def all : List Axis := [x, y, z]

def name : Axis → String
  | x => "X"
  | y => "Y"
  | z => "Z"

def index : Axis → Nat
  | x => 0
  | y => 1
  | z => 2

/-- The two directions of the motion plane; a positive rotation turns the first to the second. -/
def plane : Axis → Nat × Nat
  | x => (1, 2)
  | y => (2, 0)
  | z => (0, 1)

variable {κ : Type} [Scalar κ]

def unit (axis : Axis) : List κ :=
  (List.range 3).map fun place => if place = axis.index then 1 else 0

def rotation (axis : Axis) (angle : Expr κ) : Tensor κ :=
  let c := angle.cos
  let s := angle.sin
  let o := Expr.zero
  let l := Expr.one
  ⟨.matrix 3 3,
    match axis with
    | x => [l, o, o, o, c, -s, o, s, c]
    | y => [c, o, s, o, l, o, -s, o, c]
    | z => [c, -s, o, s, c, o, o, o, l]⟩

end Axis

structure Direction (κ : Type) where
  x : κ
  y : κ
  z : κ

namespace Direction

variable {κ : Type} [Scalar κ]

def toList (direction : Direction κ) : List κ := [direction.x, direction.y, direction.z]

def component (direction : Direction κ) : Axis → κ
  | .x => direction.x
  | .y => direction.y
  | .z => direction.z

def norm (direction : Direction κ) : κ :=
  Scalar.squareRoot ((direction.toList.map fun part => part * part).foldl (· + ·) 0)

/-- The axis that a direction is parallel to, and the sign of the alignment. -/
def axis? (direction : Direction κ) : Option (Axis × κ) :=
  let norm := direction.norm
  if Scalar.isLess norm Scalar.alignmentTolerance then none
  else
    Axis.all.findSome? fun axis =>
      let along := direction.component axis / norm
      let misfit := Scalar.magnitude (Scalar.magnitude along - 1)
      if Scalar.isLess misfit Scalar.alignmentTolerance then
        some (axis, if Scalar.isNegative along then -1 else 1)
      else none

end Direction

end Mechanism
