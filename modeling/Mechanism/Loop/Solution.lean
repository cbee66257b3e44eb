import Mechanism.Loop.Planar
import Mechanism.Loop.Structure

/-!
The closed form of every topology. What a closed form relies on is checked first, and anything
else is refused.
-/

namespace Mechanism

namespace Loop

variable {κ : Type} [Scalar κ]

def isOffAxis (point : Tensor κ) : Bool := (point.entries.drop 1).any fun entry => !entry.isZero

/-- A leg that turns about y, then about z, and slides along x, and that holds a point of a
platform. -/
structure Leg (κ : Type) [Scalar κ] where
  /-- How far the z axis is from the y axis along the leg, if it is apart. -/
  offset : Option (Expr κ)
  /-- The length of the leg behind the z axis before it slides. -/
  extension : Expr κ

/-- The travel of the leg and its angles about y and z when its end is to be at the target, as
seen from its y axis. -/
def Leg.reach (leg : Leg κ) (target : Tensor κ) : Except AlgebraError (List (Expr κ)) := do
  let x ← target.entryAt 0
  let y ← target.entryAt 1
  let z ← target.entryAt 2
  let yaw := Expr.angleOf (-z) x
  match leg.offset with
  | some offset =>
    let radial := (x.square + z.square).squareRoot - offset
    let length := (radial.square + y.square).squareRoot
    return [length - leg.extension, yaw, .angleOf y radial]
  | none =>
    let length ← target.norm
    return [length - leg.extension, yaw, .apply .asin (y / length)]

end Loop

namespace Loop.Problem

variable {κ : Type} [Scalar κ]

def fourBar (problem : Problem κ) (posture : Posture) (a b : List JointId) :
    Answer κ (Geometry κ) := do
  let request := problem.request
  let (crank, coupler) ← problem.twoJoints a request.frameA
  let rocker ← problem.oneJoint b request.frameB
  let axis ← problem.commonAxis [crank, coupler, rocker]
  let (independent, dependent) ← problem.partition [crank] [coupler, rocker]
  let bars : FourBar κ := {
    crankPivot := ← problem.anchorInPlane axis crank
    crank := ← problem.anchorInPlane axis coupler
    coupler := ← inPlane axis request.frameA.position
    rockerPivot := ← problem.anchorInPlane axis rocker
    rocker := ← inPlane axis request.frameB.position }
  let (couplerAngle, rockerAngle) := bars.follow posture.sign (← problem.position crank)
  let constraint ← problem.mismatchInPlane axis a b
  return ⟨independent, dependent, constraint, [couplerAngle, rockerAngle]⟩

def sliderOffset (problem : Problem κ) (axis : Axis) (slider : JointId) :
    Answer κ (PlanePoint κ) := do
  let anchor ← problem.anchorInPlane axis slider
  let tip ← inPlane axis problem.request.frameB.position
  return anchor + tip

def fourBarTrans (problem : Problem κ) (a b : List JointId) : Answer κ (Geometry κ) := do
  let request := problem.request
  let (crank, coupler) ← problem.twoJoints a request.frameA
  let (pivot, slider) ← problem.twoJoints b request.frameB
  let axis ← problem.commonAxis [crank, coupler, pivot]
  let direction ← problem.directionInPlane slider axis
  let (independent, dependent) ← problem.partition [crank, coupler] [slider, pivot]
  let crankAngle ← problem.position crank
  let couplerAngle ← problem.position coupler
  let crankPivot ← problem.anchorInPlane axis crank
  let crankLink ← problem.anchorInPlane axis coupler
  let couplerLink ← inPlane axis request.frameA.position
  let pivotPoint ← problem.anchorInPlane axis pivot
  let offset ← problem.sliderOffset axis slider
  let target := crankPivot + crankLink.rotate crankAngle +
    couplerLink.rotate (crankAngle + couplerAngle) - pivotPoint
  let (travel, pivotAngle) := PivotedSlider.reach ⟨offset, direction⟩ target
  let constraint ← problem.mismatchInPlane axis a b
  return ⟨independent, dependent, constraint, [travel, pivotAngle]⟩

def threeBarTrans (problem : Problem κ) (a b : List JointId) : Answer κ (Geometry κ) := do
  let request := problem.request
  let crank ← problem.oneJoint a request.frameA
  let (pivot, slider) ← problem.twoJoints b request.frameB
  let axis ← problem.commonAxis [crank, pivot]
  let direction ← problem.directionInPlane slider axis
  let (independent, dependent) ← problem.partition [crank] [slider, pivot]
  let crankAngle ← problem.position crank
  let crankPivot ← problem.anchorInPlane axis crank
  let crankLink ← inPlane axis request.frameA.position
  let pivotPoint ← problem.anchorInPlane axis pivot
  let offset ← problem.sliderOffset axis slider
  let target := crankPivot + crankLink.rotate crankAngle - pivotPoint
  let (travel, pivotAngle) := PivotedSlider.reach ⟨offset, direction⟩ target
  let constraint ← problem.mismatchInPlane axis a b
  return ⟨independent, dependent, constraint, [travel, pivotAngle]⟩

def crankSlider (problem : Problem κ) (posture : Posture) (a b : List JointId) :
    Answer κ (Geometry κ) := do
  let request := problem.request
  let crank ← problem.oneJoint a request.frameA
  let (slider, rod) ← problem.twoJoints b request.frameB
  let axis ← problem.commonAxis [crank, rod]
  let direction ← problem.directionInPlane slider axis
  let (independent, dependent) ← problem.partition [crank] [slider, rod]
  let crankAngle ← problem.position crank
  let crankPivot ← problem.anchorInPlane axis crank
  let crankLink ← inPlane axis request.frameA.position
  let sliderPoint ← problem.anchorInPlane axis slider
  let rodPivot ← problem.anchorInPlane axis rod
  let rodLink ← inPlane axis request.frameB.position
  let target := crankPivot + crankLink.rotate crankAngle - sliderPoint - rodPivot
  let (travel, rodAngle) := SlidingRod.reach ⟨direction, rodLink⟩ posture.sign target
  let constraint ← problem.mismatchInPlane axis a b
  return ⟨independent, dependent, constraint, [travel, rodAngle]⟩

def steering (problem : Problem κ) (posture : Posture) (a b : List JointId) :
    Answer κ (Geometry κ) := do
  let request := problem.request
  problem.noJoint a request.frameA
  let (rack, tieRod, knuckle) ← problem.threeJoints b request.frameB
  let axis ← problem.commonAxis [tieRod, knuckle]
  let direction ← problem.directionInPlane rack axis
  let (independent, dependent) ← problem.partition [rack] [tieRod, knuckle]
  let travel ← problem.position rack
  let rackPoint ← problem.anchorInPlane axis rack
  let tieRodPivot ← problem.anchorInPlane axis tieRod
  let kingpin ← inPlane axis request.frameA.position
  let tieRodLink ← problem.anchorInPlane axis knuckle
  let knuckleLink ← inPlane axis request.frameB.position
  let arm : TwoLinkArm κ :=
    ⟨rackPoint + direction.scale travel + tieRodPivot, tieRodLink, knuckleLink⟩
  let (tieRodAngle, knuckleAngle) := arm.reach posture.sign kingpin
  let constraint ← problem.mismatchInPlane axis a b
  return ⟨independent, dependent, constraint, [tieRodAngle, knuckleAngle]⟩

/-- The leg of a platform; only where an offset is allowed its z axis may be apart from its y
axis. -/
def leg (problem : Problem κ) (offsetAllowed : Bool) (tilt length : JointId) :
    Answer κ (Leg κ) := do
  let frame := problem.request.frameB
  let tiltPoint := (← problem.joint tilt).anchor
  let lengthPoint := (← problem.joint length).anchor
  if isOffAxis tiltPoint then
    problem.unsupported (if offsetAllowed then .legOffset else .legApart)
  let offset ← ofAlgebra (tiltPoint.entryAt 0)
  if !offsetAllowed && !offset.isZero then problem.unsupported .legApart
  if isOffAxis lengthPoint || isOffAxis frame.position then
    problem.unsupported (.legOffAxis frame.name)
  let start ← ofAlgebra (lengthPoint.entryAt 0)
  let tip ← ofAlgebra (frame.position.entryAt 0)
  return ⟨if offsetAllowed then some offset else none, start + tip⟩

def hexapod (problem : Problem κ) (offsetAllowed : Bool) (a b : List JointId) :
    Answer κ (Geometry κ) := do
  let request := problem.request
  if a.isEmpty then problem.unsupported (.fixedPlatform request.frameA.name)
  let (yaw, tilt, length) ← problem.threeJoints b request.frameB
  if (← problem.revoluteAxis yaw) ≠ .y then problem.unsupported .legRotations
  if (← problem.revoluteAxis tilt) ≠ .z then problem.unsupported .legRotations
  let direction ← problem.prismaticDirection length
  match direction.axis? with
  | some (.x, sign) => if !Scalar.isOne sign then problem.unsupported .legDirection
  | _ => problem.unsupported .legDirection
  let leg ← problem.leg offsetAllowed tilt length
  let (independent, dependent) ← problem.partition a [length, yaw, tilt]
  let platform ← ofChain (problem.chain.positionOf a request.frameA)
  let target ← ofAlgebra (platform.sub (← problem.joint yaw).anchor)
  let solution ← ofAlgebra (leg.reach target)
  let constraint ← problem.mismatch a b
  return ⟨independent, dependent, constraint, solution⟩

def coupling (problem : Problem κ) (accepted : Nat → Bool) :
    Answer κ (List Coordinate × Coordinate) := do
  let request := problem.request
  match request.dependent with
  | [follower] =>
    if !accepted request.independent.length then
      problem.unsupported (.unexpectedIndependent (problem.names request.independent))
    if request.independent.contains follower then problem.unsupported .bothRoles
    let independent ← problem.coordinates request.independent
    return (independent, (← problem.joint follower).coordinate)
  | dependent => problem.unsupported (.severalDependent (problem.names dependent))

def coupled (independent : List Coordinate) (dependent : Coordinate) (driven : Expr κ) :
    Geometry κ :=
  ⟨independent, [dependent], .ofExpr (dependent.positionExpr - driven), [driven]⟩

def transmission (problem : Problem κ) (ratio : κ) : Answer κ (Geometry κ) := do
  if !Scalar.isFinite ratio then problem.unsupported (.unboundedRatio ratio)
  let (independent, dependent) ← problem.coupling fun count => count == 1
  match independent with
  | [driver] =>
    return coupled [driver] dependent (Expr.number ratio * driver.positionExpr)
  | _ => problem.unsupported (.unexpectedIndependent (problem.names problem.request.independent))

def explicitJoint (problem : Problem κ) (expression : Expr κ) : Answer κ (Geometry κ) := do
  let (independent, dependent) ← problem.coupling fun count => count != 0
  if expression.symbols.contains dependent.position then
    problem.unsupported (.readsItself dependent.name)
  return coupled independent dependent expression

def solve (problem : Problem κ) : Answer κ (Geometry κ) := do
  let request := problem.request
  let (a, b) ← ofChain (problem.chain.branches request.frameA.body request.frameB.body)
  match request.topology with
  | .fourBar posture => problem.fourBar posture a b
  | .fourBarTrans => problem.fourBarTrans a b
  | .threeBarTrans => problem.threeBarTrans a b
  | .crankSlider posture => problem.crankSlider posture a b
  | .steering posture => problem.steering posture a b
  | .hexapod => problem.hexapod false a b
  | .hexapodWithOffset => problem.hexapod true a b
  | .transmission ratio => problem.transmission ratio
  | .explicitJoint expression => problem.explicitJoint expression

end Loop.Problem

end Mechanism
