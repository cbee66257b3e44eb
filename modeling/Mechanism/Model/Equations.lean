import Mechanism.Graph.Build
import Mechanism.Graph.Extraction
import Mechanism.Model.Closure

/-!
Values and equations of a model. All coordinates that no loop determines are inputs by then, and
values are answered only while every loop is regular.
-/

namespace Mechanism.Model

variable {κ : Type} [Scalar κ]

def valueOf (symbol : Symbol) : Action κ (Tensor κ) := do
  declareCoordinates
  verifyLoops
  Action.onGraph (Graph.valueOf symbol)

/-- The numbers of a symbol, if all that it depends on is bound to numbers. -/
def numbersOf (symbol : Symbol) : Action κ (Option (List κ)) := do
  declareCoordinates
  verifyLoops
  Action.onGraph (Graph.numbersOf symbol)

def build : Action κ (Option Graph.BuildReport) := do
  declareCoordinates
  if (← Action.getModel).graph.built then return none
  return some (← Action.onGraph Graph.build)

def generate (output : CategorySet) : Action κ (EquationList κ) := do
  let _ ← build
  match (← Action.getModel).graph.extract output .none with
  | .ok equations => return equations
  | .error error => throw (.graph error)

def reduce (kept : CategorySet) : Action κ Graph.Reduction := do
  let _ ← build
  Action.onGraph (Graph.keepOnly kept)

end Mechanism.Model
