import Mechanism.Model.Declaration

/-!
The loops of a model: each one determines coordinates that are neither inputs nor determined by
another loop.
-/

namespace Mechanism.Model

variable {κ : Type} [Scalar κ]

def jointCoordinates (ids : List JointId) : Action κ (List Coordinate) := do
  let model ← Action.getModel
  ids.mapM fun id =>
    match model.chain.joint? id with
    | some joint => return joint.coordinate
    | none => throw (.unknownJoint id)

def conflict? (model : Model κ) (coordinate : Coordinate) : Option Conflict :=
  match model.closedBy.find? coordinate.name with
  | some owner => some (.closedBy owner)
  | none => if model.graph.isInput coordinate.position then some .declared else none

def checkFollower (coordinate : Coordinate) : Action κ Unit := do
  match (← Action.getModel).conflict? coordinate with
  | some conflict => throw (.coordinateConflict coordinate.name conflict)
  | none => return

def declareDriver (coordinate : Coordinate) : Action κ Unit := do
  if !(← Action.getModel).isClosed coordinate then declareCoordinate coordinate

def addLoop (model : Model κ) (descriptor : Loop.Descriptor κ) (artifacts : Loop.Artifacts κ) :
    Model κ :=
  { model with
    closedBy := artifacts.dependent.foldl
      (fun closedBy coordinate => closedBy.insert coordinate.name descriptor.name) model.closedBy
    loops := model.loops.insert descriptor.name descriptor }

def closeLoop (descriptor : Loop.Descriptor κ) : Action κ (Loop.Artifacts κ) := do
  let attempt := descriptor.close (Action.graphSession (← get))
  Action.setGraphSession attempt.session
  let artifacts ← Action.ofLoop attempt.outcome
  Action.modifyModel fun model => model.addLoop attempt.descriptor artifacts
  return artifacts

def registerLoop [ScalarText κ] (request : Loop.Request κ) : Action κ (Loop.Artifacts κ) := do
  if (← Action.getModel).loops.contains request.name then throw (.duplicateLoop request.name)
  let independent ← jointCoordinates request.independent
  let dependent ← jointCoordinates request.dependent
  dependent.forM checkFollower
  independent.forM declareDriver
  let model ← Action.getModel
  closeLoop (← Action.ofLoop (Loop.Descriptor.new request model.chain model.settings.loops))

/-- Refuses to go on when an input has moved a loop to where it cannot be closed. Nothing is
checked again while the bindings stay as they are. -/
def verifyLoops : Action κ Unit := do
  let model ← Action.getModel
  let revision := model.graph.store.revision
  if model.checkedRevision = some revision then return
  model.loops.entries.forM fun (_, descriptor) => Action.onLoop descriptor.verify
  Action.modifyModel fun model => { model with checkedRevision := some revision }

end Mechanism.Model
