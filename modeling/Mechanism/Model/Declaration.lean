import Mechanism.Model.Basic

/-!
What a model is made of: parameters, inputs, coordinates, joints and expressions.
-/

namespace Mechanism.Model

variable {κ : Type} [Scalar κ]

def parameter (name : String) (value : Tensor κ) : Action κ Symbol := do
  let symbol ← Action.onGraph (Graph.Action.freshSymbol name value.shape)
  Action.onGraph (Graph.declareInput symbol (.only .parameter) (some value))
  return symbol

def input (name : String) (shape : Shape) (categories : CategorySet) : Action κ Symbol := do
  let symbol ← Action.onGraph (Graph.Action.freshSymbol name shape)
  Action.onGraph (Graph.declareInput symbol categories none)
  return symbol

def addCoordinate (name : String) : Action κ Coordinate := do
  let session ← get
  if session.model.coordinates.contains name then throw (.duplicateCoordinate name)
  let (coordinate, supply) := Coordinate.fresh session.supply name
  set { session with
    model := { session.model with coordinates := session.model.coordinates.insert name coordinate }
    supply := supply }
  return coordinate

def addJoint (joint : Joint κ) : Action κ JointId := do
  let model ← Action.getModel
  let name := joint.coordinate.name
  match model.coordinates.find? name with
  | none => throw (.unknownCoordinate name)
  | some known =>
    if known ≠ joint.coordinate then throw (.coordinateConflict name .otherCoordinate)
    match model.chain.add joint with
    | .error error => throw (.loop (.chain error))
    | .ok (id, chain) =>
      Action.modifyModel fun model => { model with chain := chain }
      return id

def registerExpression (name : String) (symbol : Symbol) (value : Tensor κ)
    (categories : CategorySet) : Action κ Symbol :=
  Action.onGraph (Graph.register name symbol value categories)

/-- Defines a new symbol of the name and of the shape of the value. -/
def define (name : String) (value : Tensor κ) (categories : CategorySet) : Action κ Symbol :=
  Action.onGraph (Graph.define name value categories)

def isOpen (model : Model κ) (symbol : Symbol) : Bool :=
  model.independentCoordinates.any fun coordinate =>
    [coordinate.position, coordinate.velocity, coordinate.acceleration].contains symbol

/-- Gives an input a new value. The value of a coordinate that is no input yet is held back. -/
def changeValue (symbol : Symbol) (value : Tensor κ) : Action κ Unit := do
  let model ← Action.getModel
  if !model.graph.isInput symbol && model.isOpen symbol then
    if !value.shape.isScalar then
      throw (.graph (.shapeMismatch symbol.name .scalar value.shape))
    Action.modifyModel fun model => { model with pending := model.pending.insert symbol value }
  else
    Action.onGraph (Graph.Action.update (Graph.bindInput symbol value))

/-- Makes a symbol of a coordinate an input, with the value held back for it. -/
def declareRate (symbol : Symbol) (category : Category) : Action κ Unit := do
  let initial := (← Action.getModel).pending.find? symbol
  Action.modifyModel fun model => { model with pending := model.pending.erase symbol }
  Action.onGraph (Graph.declareInput symbol (.only category) initial)

def declareCoordinate (coordinate : Coordinate) : Action κ Unit := do
  if (← Action.getModel).graph.isInput coordinate.position then return
  declareRate coordinate.position .state
  declareRate coordinate.velocity .state
  declareRate coordinate.acceleration .derivativeOfState

def declareCoordinates : Action κ Unit := do
  (← Action.getModel).independentCoordinates.forM declareCoordinate

end Mechanism.Model
