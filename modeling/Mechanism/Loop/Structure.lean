import Mechanism.Chain.Kinematics
import Mechanism.Loop.Topology
import Mechanism.Plane

/-!
The parts of a loop, as its closed form asks for them: joints of the right kind on branches of the
right length, a common plane, and the joints that drive and follow.
-/

namespace Mechanism.Loop

variable {κ : Type} [Scalar κ]

/-- What is to be closed, and the chain that it is about. -/
structure Problem (κ : Type) [Scalar κ] where
  chain : Chain κ
  request : Request κ

abbrev Answer (κ : Type) [Scalar κ] := Except (LoopError κ)

def ofChain {α : Type} : Except ChainError α → Answer κ α
  | .ok value => .ok value
  | .error error => .error (.chain error)

def ofAlgebra {α : Type} : Except AlgebraError α → Answer κ α
  | .ok value => .ok value
  | .error error => .error (.algebra error)

namespace Problem

def unsupported {α : Type} (problem : Problem κ) (reason : Misfit κ) : Answer κ α :=
  .error (.unsupportedTopology problem.request.name problem.request.topology.name reason)

def joint (problem : Problem κ) (id : JointId) : Answer κ (Joint κ) :=
  ofChain (problem.chain.joint id)

def names (problem : Problem κ) (ids : List JointId) : List String :=
  ids.map fun id => ((problem.chain.joint? id).map Joint.name).getD "?"

def noJoint (problem : Problem κ) (branch : List JointId) (frame : Frame κ) : Answer κ Unit :=
  match branch with
  | [] => .ok ()
  | _ => problem.unsupported (.branchLength 0 frame.name (problem.names branch))

def oneJoint (problem : Problem κ) (branch : List JointId) (frame : Frame κ) :
    Answer κ JointId :=
  match branch with
  | [first] => .ok first
  | _ => problem.unsupported (.branchLength 1 frame.name (problem.names branch))

def twoJoints (problem : Problem κ) (branch : List JointId) (frame : Frame κ) :
    Answer κ (JointId × JointId) :=
  match branch with
  | [first, second] => .ok (first, second)
  | _ => problem.unsupported (.branchLength 2 frame.name (problem.names branch))

def threeJoints (problem : Problem κ) (branch : List JointId) (frame : Frame κ) :
    Answer κ (JointId × JointId × JointId) :=
  match branch with
  | [first, second, third] => .ok (first, second, third)
  | _ => problem.unsupported (.branchLength 3 frame.name (problem.names branch))

def revoluteAxis (problem : Problem κ) (id : JointId) : Answer κ Axis := do
  let joint ← problem.joint id
  match joint.motion with
  | .revolute axis => return axis
  | .prismatic _ => problem.unsupported (.notRevolute joint.name)

def prismaticDirection (problem : Problem κ) (id : JointId) : Answer κ (Direction κ) := do
  let joint ← problem.joint id
  match joint.motion with
  | .prismatic direction => return direction
  | .revolute _ => problem.unsupported (.notPrismatic joint.name)

def commonAxis (problem : Problem κ) (ids : List JointId) : Answer κ Axis := do
  let axes ← ids.mapM problem.revoluteAxis
  match Grouping.distinct axes with
  | [axis] => return axis
  | _ => problem.unsupported (.severalAxes (problem.names ids))

def directionInPlane (problem : Problem κ) (id : JointId) (axis : Axis) :
    Answer κ (PlanePoint κ) := do
  let direction ← problem.prismaticDirection id
  if Scalar.isLess Scalar.alignmentTolerance (Scalar.magnitude (direction.component axis)) then
    problem.unsupported (.outOfPlane (← problem.joint id).name axis)
  else
    ofAlgebra (PlanePoint.project axis (.ofColumn (direction.toList.map Expr.number)))

def coordinates (problem : Problem κ) (ids : List JointId) : Answer κ (List Coordinate) :=
  ids.mapM fun id => do return (← problem.joint id).coordinate

def sameJoints (given expected : List JointId) : Bool :=
  (Grouping.distinct given).length == expected.length && expected.all given.contains

/-- The coordinates of the joints that drive and of those that follow, where the request names
just these joints. -/
def partition (problem : Problem κ) (independent dependent : List JointId) :
    Answer κ (List Coordinate × List Coordinate) := do
  let request := problem.request
  if !sameJoints request.independent independent then
    problem.unsupported
      (.independentJoints (problem.names independent) (problem.names request.independent))
  else if !sameJoints request.dependent dependent then
    problem.unsupported
      (.dependentJoints (problem.names dependent) (problem.names request.dependent))
  else
    let u ← problem.coordinates independent
    let v ← problem.coordinates dependent
    return (u, v)

def inPlane (axis : Axis) (offset : Tensor κ) : Answer κ (PlanePoint κ) :=
  ofAlgebra (PlanePoint.project axis offset)

def position (problem : Problem κ) (id : JointId) : Answer κ (Expr κ) := do
  return (← problem.joint id).coordinate.positionExpr

def anchorInPlane (problem : Problem κ) (axis : Axis) (id : JointId) : Answer κ (PlanePoint κ) := do
  inPlane axis (← problem.joint id).anchor

/-- The position of the first frame minus that of the second, relative to the base that they
share. -/
def mismatch (problem : Problem κ) (a b : List JointId) : Answer κ (Tensor κ) := do
  let first ← ofChain (problem.chain.positionOf a problem.request.frameA)
  let second ← ofChain (problem.chain.positionOf b problem.request.frameB)
  ofAlgebra (first.sub second)

def mismatchInPlane (problem : Problem κ) (axis : Axis) (a b : List JointId) :
    Answer κ (Tensor κ) := do
  let whole ← problem.mismatch a b
  ofAlgebra (whole.select [axis.plane.1, axis.plane.2])

end Problem

end Mechanism.Loop
