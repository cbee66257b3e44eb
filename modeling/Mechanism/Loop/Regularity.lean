import Mechanism.Graph.Values
import Mechanism.Loop.Linearization
import Mechanism.Loop.Session
import Mechanism.Tensor.Determinant

/-!
Whether a loop can be closed where it stands: its closed form has a value, and the derivative by
the dependent coordinates can be inverted. Where something that this reads has no numbers yet,
nothing is asked.
-/

namespace Mechanism.Loop

variable {κ : Type} [Scalar κ]

abbrev Numbers (κ : Type) := Table Symbol (List κ)

def Numbers.assignment (numbers : Numbers κ) (atom : Atom) : Option κ := do
  let entries ← numbers.find? atom.symbol
  entries[atom.flatIndex]?

/-- The symbols that the closed form and the derivative read, the dependent positions apart. -/
def Derivation.parameters (derivation : Derivation κ) : List Symbol :=
  let followers := derivation.geometry.dependent.map Coordinate.position
  let read := derivation.geometry.solution.flatMap Expr.symbols ++
    derivation.jacobians.dependent.symbols
  (Grouping.distinct read).filter fun symbol => !followers.contains symbol

def numbersOf : List Symbol → Numbers κ → StateM (Graph.Session κ) (Option (Numbers κ))
  | [], known => return some known
  | symbol :: rest, known => do
    match ← ((Graph.numbersOf symbol).run :
        StateM (Graph.Session κ) (Except (GraphError κ) (Option (List κ)))) with
    | .ok (some entries) => numbersOf rest (known.insert symbol entries)
    | _ => return none

/-- Where a loop stands. A number is missing where the closed form has no value. -/
structure Configuration (κ : Type) where
  coordinates : List (String × Option κ)
  determinant : Option κ

def determinantAt (numbers : Numbers κ) (jacobian : Tensor κ) : Except AlgebraError (Option κ) :=
  match jacobian.evaluate numbers.assignment with
  | none => .ok none
  | some entries => do
    let evaluated ← Tensor.ofNumbers jacobian.shape entries
    return (← evaluated.determinant).asNumber?

def Derivation.configurationAt (derivation : Derivation κ) (numbers : Numbers κ) :
    Except AlgebraError (Configuration κ) := do
  let geometry := derivation.geometry
  let solved := geometry.solution.map fun expr => expr.evaluate numbers.assignment
  let drivers := geometry.independent.filterMap fun coordinate => do
    let entries ← numbers.find? coordinate.position
    return (coordinate.name, some (← entries.head?))
  let followers := (geometry.dependent.map Coordinate.name).zip solved
  let complete := (geometry.dependent.zip solved).foldl (fun known (coordinate, value) =>
    match value with
    | some value => known.insert coordinate.position [value]
    | none => known) numbers
  let determinant ←
    if solved.all fun value => value.any Scalar.isFinite then
      determinantAt complete derivation.jacobians.dependent
    else .ok none
  return ⟨drivers ++ followers, determinant⟩

def Settings.admits (settings : Settings κ) (determinant : Option κ) : Bool :=
  determinant.any fun value =>
    Scalar.isFinite value && Scalar.isLess settings.tolerance (Scalar.magnitude value)

def checkRegularity (name : String) (settings : Settings κ) (derivation : Derivation κ) :
    Action κ Unit := do
  match ← (numbersOf derivation.parameters ∅ : StateM (Graph.Session κ) (Option (Numbers κ))) with
  | none => return
  | some numbers =>
    let configuration ← Action.ofAlgebra (derivation.configurationAt numbers)
    if !settings.admits configuration.determinant then
      throw (.singularity name configuration.determinant configuration.coordinates)

end Mechanism.Loop
