import Mechanism.Model.Closure

/-!
Equations of motion in the independent coordinates. The accelerations of all coordinates are
`J a + b` for the independent accelerations `a`; with the mass matrix `M`, the bias `h` and the
forces `f`, the reduced equations have the mass `Jᵀ M J`, the bias `Jᵀ (M b + h)` and the forces
`Jᵀ f`.
-/

namespace Mechanism.Model

variable {κ : Type} [Scalar κ]

structure ClosureRow (κ : Type) [Scalar κ] where
  coefficients : List (Expr κ)
  offset : Expr κ

namespace ClosureRow

def unit (count place : Nat) : ClosureRow κ :=
  ⟨(List.replicate count Expr.zero).set place .one, .zero⟩

def start (count : Nat) (offset : Expr κ) : ClosureRow κ := ⟨List.replicate count .zero, offset⟩

def addMultiple (row : ClosureRow κ) (ratio : Expr κ) (driver : ClosureRow κ) : ClosureRow κ :=
  ⟨List.zipWith (fun entry coefficient => entry + ratio * coefficient) row.coefficients
    driver.coefficients, row.offset + ratio * driver.offset⟩

end ClosureRow

/-- The row of a coordinate, through the loops that determine it. A loop is driven by coordinates
of earlier loops only, so the number of loops bounds the depth. -/
def closureRow (model : Model κ) (independent : List Coordinate) :
    Nat → Coordinate → Except (ModelError κ) (ClosureRow κ)
  | fuel, coordinate =>
    match model.closedBy.find? coordinate.name with
    | none =>
      match independent.findIdx? fun other => other.position = coordinate.position with
      | some place => .ok (.unit independent.length place)
      | none => .error (.coordinateConflict coordinate.name .notListed)
    | some loop =>
      match fuel, model.artifacts? loop with
      | fuel + 1, some artifacts =>
        match artifacts.dependent.findIdx? fun other => other = coordinate with
        | none => .error (.unknownCoordinate coordinate.name)
        | some place => do
          let offset ← (artifacts.bPrime.entryAt place).mapError .algebra
          artifacts.independent.zipIdx.foldlM (fun row (driver, index) => do
            let ratio ← (artifacts.bvu.entry place index).mapError .algebra
            return row.addMultiple ratio (← closureRow model independent fuel driver))
            (.start independent.length offset)
      | _, _ => .error (.dynamics (.notRegistered loop))

def accelerationMap (model : Model κ) (coordinates independent : List Coordinate) :
    Except (ModelError κ) (Tensor κ × Tensor κ) := do
  let rows ← coordinates.mapM (closureRow model independent (model.closedBy.size + 1))
  let entries := rows.flatMap ClosureRow.coefficients
  let jacobian ← (Tensor.matrix rows.length independent.length entries).mapError .algebra
  let offset ← (Tensor.matrix rows.length 1 (rows.map ClosureRow.offset)).mapError .algebra
  return (jacobian, offset)

structure Motion (κ : Type) [Scalar κ] where
  mass : Tensor κ
  bias : Tensor κ
  forces : Tensor κ

namespace Motion

def fault? (motion : Motion κ) (size : Nat) : Option MotionFault :=
  if motion.mass.rows ≠ size ∨ motion.mass.columns ≠ size then
    some (.massShape size motion.mass.shape)
  else
    ([("bias", motion.bias), ("forces", motion.forces)].find? fun (_, column) =>
      column.rows != size || column.columns != 1).map fun (label, column) =>
        .rowCount label size column.shape

def reduce (motion : Motion κ) (jacobian offset : Tensor κ) :
    Except AlgebraError (Motion κ) := do
  let transposed := jacobian.transpose
  let mass ← transposed.matmul (← motion.mass.matmul jacobian)
  let bias ← transposed.matmul (← (← motion.mass.matmul offset).add motion.bias)
  let forces ← transposed.matmul motion.forces
  return ⟨mass, bias, forces⟩

end Motion

def checkListed (model : Model κ) : List String → List Coordinate → Except (ModelError κ) Unit
  | _, [] => .ok ()
  | seen, coordinate :: rest =>
    if model.coordinates.find? coordinate.name ≠ some coordinate then
      .error (.unknownCoordinate coordinate.name)
    else if seen.contains coordinate.name then .error (.duplicateCoordinate coordinate.name)
    else model.checkListed (coordinate.name :: seen) rest

def reducedMotion (model : Model κ) (coordinates : List Coordinate) (motion : Motion κ) :
    Except (ModelError κ) (List Coordinate × Motion κ) := do
  if model.dynamics.isSome then throw (.dynamics .alreadyReduced)
  match motion.fault? coordinates.length with
  | some fault => throw (.dynamics fault)
  | none => pure ()
  model.checkListed [] coordinates
  let independent := coordinates.filter fun coordinate => !model.isClosed coordinate
  let (jacobian, offset) ← model.accelerationMap coordinates independent
  let reduced ← (motion.reduce jacobian offset).mapError .algebra
  return (independent, reduced)

def reduceDynamics (coordinates : List Coordinate) (motion : Motion κ) : Action κ Dynamics := do
  match (← Action.getModel).reducedMotion coordinates motion with
  | .error error => throw error
  | .ok (independent, reduced) =>
    let mass ← define "M_star" reduced.mass (.only .variable)
    let bias ← define "h_star" reduced.bias (.only .variable)
    let forces ← define "f_star" reduced.forces (.only .variable)
    let dynamics : Dynamics := ⟨independent, mass, bias, forces⟩
    Action.modifyModel fun model => { model with dynamics := some dynamics }
    return dynamics

end Mechanism.Model
