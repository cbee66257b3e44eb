import Mechanism.Chain.Basic

/-!
Positions of frames as the joints above them move.
-/

namespace Mechanism

variable {κ : Type} [Scalar κ]

/-- A frame on its way down a branch: where its origin is and how it is turned. -/
structure Pose (κ : Type) [Scalar κ] where
  position : Tensor κ
  rotation : Tensor κ

namespace Pose

def start : Pose κ := ⟨.zeros 3 1, .identity 3⟩

def locate (pose : Pose κ) (offset : Tensor κ) : Tensor κ :=
  pose.position.sumEntries (pose.rotation.multiply offset)

def slide (direction : Direction κ) (distance : Expr κ) : Tensor κ :=
  (Tensor.ofColumn (direction.toList.map Expr.number)).scale distance

def moveBy (pose : Pose κ) (joint : Joint κ) : Pose κ :=
  let anchored : Pose κ := ⟨pose.locate joint.anchor, pose.rotation⟩
  let q := joint.coordinate.positionExpr
  match joint.motion with
  | .revolute axis => ⟨anchored.position, anchored.rotation.multiply (axis.rotation q)⟩
  | .prismatic direction => ⟨anchored.locate (slide direction q), anchored.rotation⟩

end Pose

namespace Chain

/-- The position of a frame relative to the frame in which the first joint of the branch is
anchored. -/
def positionOf (chain : Chain κ) (branch : List JointId) (frame : Frame κ) :
    Except ChainError (Tensor κ) := do
  checkOffset frame.name frame.position
  let joints ← branch.mapM chain.joint
  return (joints.foldl Pose.moveBy Pose.start).locate frame.position

end Chain

end Mechanism
