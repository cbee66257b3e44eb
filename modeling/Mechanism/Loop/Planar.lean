import Mechanism.Plane

/-!
Planar linkages that close in closed form. Each one is given by the points of its links in the
plane, at rest, and answers the motion of the joints that follow when the others are driven.
-/

namespace Mechanism.Loop

variable {κ : Type} [Scalar κ]

structure FourBar (κ : Type) [Scalar κ] where
  crankPivot : PlanePoint κ
  /-- From the pivot of the crank to that of the coupler. -/
  crank : PlanePoint κ
  coupler : PlanePoint κ
  rockerPivot : PlanePoint κ
  rocker : PlanePoint κ

/-- The angles of the coupler and of the rocker when the crank is turned. -/
def FourBar.follow (bars : FourBar κ) (sign : κ) (crankAngle : Expr κ) : Expr κ × Expr κ :=
  let pin := bars.crankPivot + bars.crank.rotate crankAngle
  let tip := Circle.intersection ⟨pin, bars.coupler.length⟩
    ⟨bars.rockerPivot, bars.rocker.length⟩ sign
  ((tip - pin).angle - bars.coupler.angle - crankAngle,
    (tip - bars.rockerPivot).angle - bars.rocker.angle)

structure PivotedSlider (κ : Type) [Scalar κ] where
  /-- The end of the slider before it moves, from the pivot. -/
  offset : PlanePoint κ
  direction : PlanePoint κ

/-- The travel of the slider and the angle of the pivot when the end of the slider is to be at the
target, as seen from the pivot. -/
def PivotedSlider.reach (link : PivotedSlider κ) (target : PlanePoint κ) : Expr κ × Expr κ :=
  let along := link.offset.dot link.direction
  let travel := -along +
    (along.square - link.offset.lengthSquared + target.lengthSquared).squareRoot
  (travel, target.angle - (link.offset + link.direction.scale travel).angle)

/-- A rod whose far end is to meet the end of a crank while its near end rides on a slider. -/
structure SlidingRod (κ : Type) [Scalar κ] where
  direction : PlanePoint κ
  rod : PlanePoint κ

/-- The travel of the slider and the angle of the rod when the far end of the rod is to be at the
target, as seen from the near end before it moves. -/
def SlidingRod.reach (link : SlidingRod κ) (sign : κ) (target : PlanePoint κ) :
    Expr κ × Expr κ :=
  let along := target.dot link.direction
  let ahead := (along.square - target.lengthSquared + link.rod.lengthSquared).squareRoot
  let travel := along + Expr.number sign * ahead
  (travel, (target - link.direction.scale travel).angle - link.rod.angle)

structure TwoLinkArm (κ : Type) [Scalar κ] where
  pivot : PlanePoint κ
  first : PlanePoint κ
  second : PlanePoint κ

/-- The angles of both links when the end of the second one is to be at the target. -/
def TwoLinkArm.reach (arm : TwoLinkArm κ) (sign : κ) (target : PlanePoint κ) :
    Expr κ × Expr κ :=
  let knee := Circle.intersection ⟨arm.pivot, arm.first.length⟩ ⟨target, arm.second.length⟩ sign
  let firstAngle := (knee - arm.pivot).angle - arm.first.angle
  (firstAngle, (target - knee).angle - arm.second.angle - firstAngle)

end Mechanism.Loop
