import Mechanism.Loop.Error

/-!
The kinds of loops that have a closed form, and what is asked of one: two frames that are to
coincide, and which joints drive and which follow.
-/

namespace Mechanism.Loop

inductive Posture where
  | positive | negative
  deriving DecidableEq, Repr

def Posture.sign {κ : Type} [Scalar κ] : Posture → κ
  | positive => 1
  | negative => -1

inductive Topology (κ : Type) [Scalar κ] where
  /-- A crank `A` carrying a coupler `B` against a rocker `D`; `A` drives `B` and `D`. -/
  | fourBar (posture : Posture)
  /-- A crank and a coupler against a slider on a pivot; both drive the slider and the pivot. -/
  | fourBarTrans
  | threeBarTrans
  /-- A crank driving a rod whose far end rides on a slider of the base. -/
  | crankSlider (posture : Posture)
  /-- A rack, then two pivots that reach a point of the base. -/
  | steering (posture : Posture)
  /-- A platform against a leg that turns about y, then z, and slides along x. -/
  | hexapod
  /-- The same, with the z axis apart from the y axis along the leg. -/
  | hexapodWithOffset
  | transmission (ratio : κ)
  | explicitJoint (expression : Expr κ)

namespace Topology

variable {κ : Type} [Scalar κ]

def name : Topology κ → String
  | fourBar _ => "four-bar"
  | fourBarTrans => "four-bar-trans"
  | threeBarTrans => "three-bar-trans"
  | crankSlider _ => "crank-slider"
  | steering _ => "steering"
  | hexapod => "hexapod"
  | hexapodWithOffset => "hexapod-with-offset"
  | transmission _ => "transmission"
  | explicitJoint _ => "explicit-joint"

def allowsFixedFrame : Topology κ → Bool
  | steering _ => true
  | _ => false

end Topology

structure Request (κ : Type) [Scalar κ] where
  name : String
  topology : Topology κ
  frameA : Frame κ
  frameB : Frame κ
  independent : List JointId
  dependent : List JointId

structure Geometry (κ : Type) [Scalar κ] where
  independent : List Coordinate
  dependent : List Coordinate
  constraint : Tensor κ
  /-- The dependent coordinates in terms of the independent ones. -/
  solution : List (Expr κ)

end Mechanism.Loop
