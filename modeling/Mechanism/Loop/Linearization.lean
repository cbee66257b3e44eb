import Mechanism.Loop.Topology
import Mechanism.Tensor.Algebra

/-!
The first and second derivatives of a constraint along its coordinates.
-/

namespace Mechanism.Loop

variable {κ : Type} [Scalar κ]

/-- The derivatives of a constraint by the independent and by the dependent coordinates. -/
structure Jacobians (κ : Type) [Scalar κ] where
  independent : Tensor κ
  dependent : Tensor κ

structure Derivation (κ : Type) [Scalar κ] where
  geometry : Geometry κ
  jacobians : Jacobians κ
  /-- What the constraint accelerates by when no coordinate accelerates. -/
  drift : Tensor κ

namespace Geometry

def jacobians (geometry : Geometry κ) : Except AlgebraError (Jacobians κ) := do
  let independent ← geometry.constraint.jacobian (geometry.independent.map Coordinate.atom)
  let dependent ← geometry.constraint.jacobian (geometry.dependent.map Coordinate.atom)
  return ⟨independent, dependent⟩

def drift (geometry : Geometry κ) : Except AlgebraError (Tensor κ) := do
  let coordinates := geometry.independent ++ geometry.dependent
  let positions := coordinates.map Coordinate.atom
  let velocities := Tensor.ofColumn (coordinates.map Coordinate.velocityExpr)
  let rate ← (← geometry.constraint.jacobian positions).matmul velocities
  (← rate.jacobian positions).matmul velocities

end Geometry

end Mechanism.Loop
