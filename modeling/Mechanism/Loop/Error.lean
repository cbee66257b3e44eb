import Mechanism.Chain.Basic
import Mechanism.Graph.Error

/-!
What can be wrong with a kinematic loop.
-/

namespace Mechanism

namespace Loop

/-- Why the joints and frames of a loop do not have the structure that its topology needs. -/
inductive Misfit (κ : Type) where
  | branchLength (expected : Nat) (frame : String) (found : List String)
  | notRevolute (joint : String)
  | notPrismatic (joint : String)
  | severalAxes (joints : List String)
  | outOfPlane (joint : String) (axis : Axis)
  | independentJoints (expected found : List String)
  | dependentJoints (expected found : List String)
  | fixedPlatform (frame : String)
  | legRotations
  | legDirection
  | legApart
  | legOffset
  | legOffAxis (frame : String)
  | severalDependent (found : List String)
  | unexpectedIndependent (found : List String)
  | bothRoles
  | unboundedRatio (ratio : κ)
  | readsItself (coordinate : String)

def listing (names : List String) : String := "[" ++ String.intercalate ", " names ++ "]"

def Misfit.message {κ : Type} [ScalarText κ] : Misfit κ → String
  | .branchLength expected frame found =>
    "expected " ++ toString expected ++ " joint(s) between the shared base and frame " ++ frame ++
      ", found " ++ listing found
  | .notRevolute joint => "joint " ++ joint ++ " must be revolute"
  | .notPrismatic joint => "joint " ++ joint ++ " must be prismatic"
  | .severalAxes joints => "revolute joints " ++ listing joints ++ " must share one axis"
  | .outOfPlane joint axis =>
    "prismatic joint " ++ joint ++ " must move in the plane normal to " ++ axis.name
  | .independentJoints expected found =>
    "independent joints must be " ++ listing expected ++ ", got " ++ listing found
  | .dependentJoints expected found =>
    "dependent joints must be " ++ listing expected ++ ", got " ++ listing found
  | .fixedPlatform frame => "frame " ++ frame ++ " must be moved by the platform joints"
  | .legRotations => "leg joints must rotate about y, then z"
  | .legDirection => "leg length joint must slide along +x"
  | .legApart => "z joint must sit on the y joint; use the offset hexapod topology"
  | .legOffset => "z joint must sit on the leg's x axis"
  | .legOffAxis frame => "leg joint and frame " ++ frame ++ " must lie on the leg's x axis"
  | .severalDependent found => "exactly one dependent joint required, got " ++ listing found
  | .unexpectedIndependent found => "unexpected independent joints " ++ listing found
  | .bothRoles => "a joint cannot be both independent and dependent"
  | .unboundedRatio ratio => "transmission ratio must be finite, got " ++ ScalarText.full ratio
  | .readsItself coordinate =>
    "expression for " ++ coordinate ++ " must not read its own coordinate"

end Loop

inductive LoopError (κ : Type) [Scalar κ] where
  | worldConnection (loop frame : String)
  | unsupportedTopology (loop topology : String) (reason : Loop.Misfit κ)
  /-- No number stands where the closed form has no value. -/
  | singularity (loop : String) (determinant : Option κ) (configuration : List (String × Option κ))
  | chain (error : ChainError)
  | invalidSettings (reason : String)
  | graph (error : GraphError κ)
  | algebra (error : AlgebraError)

namespace LoopError

variable {κ : Type} [Scalar κ]

def undefinedText : String := "NaN"

def message [ScalarText κ] : LoopError κ → String
  | worldConnection loop frame =>
    "loop " ++ loop ++ ": frame " ++ frame ++
      " is fixed to the world, it must sit on a moving body"
  | unsupportedTopology loop topology reason =>
    "loop " ++ loop ++ ": unsupported " ++ topology ++ " topology: " ++ reason.message
  | singularity loop determinant configuration =>
    "loop " ++ loop ++ ": kinematic singularity (det Jv = " ++
      (determinant.map ScalarText.scientific).getD undefinedText ++ ") at " ++
      String.intercalate ", " (configuration.map fun (name, value) =>
        name ++ "=" ++ (value.map ScalarText.full).getD undefinedText)
  | chain error => "invalid joint chain: " ++ error.message
  | invalidSettings reason => "invalid loop configuration: " ++ reason
  | graph error => error.message
  | algebra error => error.message

end LoopError

end Mechanism
