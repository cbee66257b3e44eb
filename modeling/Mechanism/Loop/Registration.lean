import Mechanism.Graph.Registration
import Mechanism.Loop.Linearization
import Mechanism.Loop.Session
import Mechanism.Tensor.Determinant

/-!
Registering a loop in a graph. The dependent positions get their closed form. Velocities and
accelerations follow from the differentiated constraint: with the derivatives `Ju` and `Jv`, the
velocities are `Bvu` times the independent ones for `Bvu = -Jv⁻¹ Ju`, and the accelerations are
`Bvu` times the independent ones plus `b_prime = -Jv⁻¹ drift`.
-/

namespace Mechanism.Loop

variable {κ : Type} [Scalar κ]

structure Artifacts (κ : Type) [Scalar κ] where
  independent : List Coordinate
  /-- Their positions, velocities and accelerations are defined by the graph. -/
  dependent : List Coordinate
  constraint : Tensor κ
  ju : Symbol
  jv : Symbol
  jvInverse : Symbol
  bvu : Symbol
  drift : Symbol
  bPrime : Symbol

namespace Artifacts

instance : DecidableEq (Artifacts κ) := fun left right =>
  decidable_of_iff
    (left.independent = right.independent ∧ left.dependent = right.dependent ∧
      left.constraint = right.constraint ∧ left.ju = right.ju ∧ left.jv = right.jv ∧
      left.jvInverse = right.jvInverse ∧ left.bvu = right.bvu ∧ left.drift = right.drift ∧
      left.bPrime = right.bPrime) (by
    cases left; cases right; simp)

def positions (artifacts : Artifacts κ) : List Symbol :=
  artifacts.dependent.map Coordinate.position

def symbols (artifacts : Artifacts κ) : List Symbol :=
  [artifacts.ju, artifacts.jv, artifacts.jvInverse, artifacts.bvu, artifacts.drift,
    artifacts.bPrime]

end Artifacts

def define (symbol : Symbol) (value : Tensor κ) : Action κ Unit := do
  let _ ← Action.onGraph
    (Graph.register symbol.name symbol value (CategorySet.only .loopInternal))
  return

def defineNew (name : String) (rows columns : Nat) (value : Tensor κ) : Action κ Symbol := do
  let symbol ← Action.onGraph (Graph.Action.freshSymbol name (Shape.ofDimensions rows columns))
  define symbol value
  return symbol

def defineEach (column : Tensor κ) (symbols : List Symbol) : Action κ Unit :=
  symbols.zipIdx.forM fun (symbol, index) => do
    define symbol (.ofExpr (← Action.ofAlgebra (column.entryAt index)))

def register (name : String) (derivation : Derivation κ) : Action κ (Artifacts κ) := do
  let geometry := derivation.geometry
  let m := geometry.dependent.length
  let n := geometry.independent.length
  (geometry.dependent.zip geometry.solution).forM fun (coordinate, solution) =>
    define coordinate.position (.ofExpr solution)
  let ju ← defineNew (name ++ "_Ju") m n derivation.jacobians.independent
  let jv ← defineNew (name ++ "_Jv") m m derivation.jacobians.dependent
  let inverse ← Action.ofAlgebra (Tensor.ofSymbol jv).inverse
  let jvInverse ← defineNew (name ++ "_Jv_inv") m m inverse
  let ratio ← Action.ofAlgebra ((Tensor.ofSymbol jvInverse).matmul (Tensor.ofSymbol ju))
  let bvu ← defineNew (name ++ "_Bvu") m n ratio.negate
  let velocities := Tensor.ofColumn (geometry.independent.map Coordinate.velocityExpr)
  let followed ← Action.ofAlgebra ((Tensor.ofSymbol bvu).matmul velocities)
  defineEach followed (geometry.dependent.map Coordinate.velocity)
  let drift ← defineNew (name ++ "_Jdot_qd") m 1 derivation.drift
  let compensation ← Action.ofAlgebra ((Tensor.ofSymbol jvInverse).matmul (Tensor.ofSymbol drift))
  let bPrime ← defineNew (name ++ "_b_prime") m 1 compensation.negate
  let accelerations := Tensor.ofColumn (geometry.independent.map Coordinate.accelerationExpr)
  let driven ← Action.ofAlgebra ((Tensor.ofSymbol bvu).matmul accelerations)
  let total ← Action.ofAlgebra (driven.add (.ofSymbol bPrime))
  defineEach total (geometry.dependent.map Coordinate.acceleration)
  return ⟨geometry.independent, geometry.dependent, geometry.constraint, ju, jv, jvInverse, bvu,
    drift, bPrime⟩

end Mechanism.Loop
