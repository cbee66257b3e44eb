import Mechanism.Loop.Descriptor
import Mechanism.Loop.Error

/-!
Models of mechanisms: a graph of equations, a chain of joints, the coordinates that move them, and
the loops that determine some of the coordinates by others.

A coordinate that no loop determines becomes an input of the graph when it is first needed. A value
that is set before that is held back, and is the first value of the input.

Its settings and what can be wrong with it stand first.
-/

namespace Mechanism

namespace Model

/-- The settings of a model: those of its graph and those of its loops. -/
structure Settings (κ : Type) where
  graph : Graph.Settings
  loops : Loop.Settings κ

namespace Settings

variable {κ : Type} [Scalar κ]

def standard : Settings κ := ⟨.standard, .standard⟩

/-- What is wrong with the settings, if anything; the graph is looked at first. -/
def fault? [ScalarText κ] (settings : Settings κ) : Option String :=
  match settings.graph.fault?, settings.loops.fault? with
  | some reason, _ => some (GraphError.invalidSettings reason : GraphError κ).message
  | none, some reason => some (LoopError.invalidSettings reason : LoopError κ).message
  | none, none => none

end Settings

/-- Why a coordinate cannot have the role that is asked of it. -/
inductive Conflict where
  | otherCoordinate
  | closedBy (loop : String)
  | declared
  | notListed

def Conflict.text : Conflict → String
  | .otherCoordinate => "another coordinate with this name belongs to the model"
  | .closedBy loop => "already determined by loop " ++ loop
  | .declared => "already declared as an independent input"
  | .notListed => "drives a loop but is not an independent coordinate of the reduction"

inductive MotionFault where
  | alreadyReduced
  | massShape (size : Nat) (found : Shape)
  | rowCount (label : String) (size : Nat) (found : Shape)
  | notRegistered (loop : String)

def MotionFault.text : MotionFault → String
  | .alreadyReduced => "equations of motion are already reduced"
  | .massShape size found =>
    "mass matrix must be " ++ toString size ++ "x" ++ toString size ++ ", got " ++ found.text
  | .rowCount label size found =>
    label ++ " vector must have " ++ toString size ++ " rows, got " ++ found.text
  | .notRegistered loop => "loop " ++ loop ++ " is not registered"

end Model

inductive ModelError (κ : Type) [Scalar κ] where
  | duplicateCoordinate (coordinate : String)
  | unknownCoordinate (coordinate : String)
  | unknownJoint (joint : JointId)
  | duplicateLoop (loop : String)
  | coordinateConflict (coordinate : String) (conflict : Model.Conflict)
  | dynamics (fault : Model.MotionFault)
  | invalidSettings (reason : String)
  | graph (error : GraphError κ)
  | loop (error : LoopError κ)
  | algebra (error : AlgebraError)

section

variable {κ : Type} [Scalar κ] [ScalarText κ]

def ModelError.message : ModelError κ → String
  | .duplicateCoordinate coordinate => "coordinate " ++ coordinate ++ " is already defined"
  | .unknownCoordinate coordinate => "unknown coordinate " ++ coordinate
  | .unknownJoint joint => "unknown joint " ++ joint.text
  | .duplicateLoop name => "loop " ++ name ++ " is already registered"
  | .coordinateConflict coordinate conflict =>
    "coordinate " ++ coordinate ++ ": " ++ conflict.text
  | .dynamics fault => "equations of motion: " ++ fault.text
  | .invalidSettings reason => "invalid model configuration: " ++ reason
  | .graph error => error.message
  | .loop error => error.message
  | .algebra error => error.message

end

namespace Model

structure Dynamics where
  independent : List Coordinate
  mass : Symbol
  bias : Symbol
  forces : Symbol
  deriving DecidableEq, Repr

end Model

structure Model (κ : Type) [Scalar κ] where
  settings : Model.Settings κ
  graph : Graph κ
  chain : Chain κ
  coordinates : Table String Coordinate
  closedBy : Table String String
  loops : Table String (Loop.Descriptor κ)
  /-- Values held back until their coordinate is an input. -/
  pending : Table Symbol (Tensor κ)
  dynamics : Option Model.Dynamics
  /-- The revision of the bindings at which all loops have last been found regular. -/
  checkedRevision : Option Nat

namespace Model

variable {κ : Type} [Scalar κ]

def ofSettings (settings : Settings κ) (simplifier : Simplifier κ) : Model κ where
  settings := settings
  graph := .ofSettings settings.graph simplifier
  chain := .empty
  coordinates := ∅
  closedBy := ∅
  loops := ∅
  pending := ∅
  dynamics := none
  checkedRevision := none

def new [ScalarText κ] (settings : Settings κ) (simplifier : Simplifier κ) :
    Except (ModelError κ) (Model κ) :=
  match settings.fault? with
  | some reason => .error (.invalidSettings reason)
  | none => .ok (ofSettings settings simplifier)

def allCoordinates (model : Model κ) : List Coordinate := model.coordinates.entries.map (·.2)

def isClosed (model : Model κ) (coordinate : Coordinate) : Bool :=
  model.closedBy.contains coordinate.name

def independentCoordinates (model : Model κ) : List Coordinate :=
  model.allCoordinates.filter fun coordinate => !model.isClosed coordinate

def artifacts? (model : Model κ) (loop : String) : Option (Loop.Artifacts κ) := do
  (← model.loops.find? loop).artifacts?

/-- A model at work, together with the numbers left for new symbols. -/
structure Session (κ : Type) [Scalar κ] where
  model : Model κ
  supply : SymbolSupply

abbrev Action (κ : Type) [Scalar κ] := ExceptT (ModelError κ) (StateM (Session κ))

namespace Action

def getModel : Action κ (Model κ) := do
  let session ← get
  return session.model

def modifyModel (change : Model κ → Model κ) : Action κ Unit :=
  modify fun session => { session with model := change session.model }

def graphSession (session : Session κ) : Graph.Session κ := ⟨session.model.graph, session.supply⟩

def setGraphSession (work : Graph.Session κ) : Action κ Unit :=
  modify fun session => ⟨{ session.model with graph := work.graph }, work.supply⟩

def onGraph {α : Type} (action : Graph.Action κ α) : Action κ α := do
  let (outcome, work) := action.run.run (graphSession (← get))
  setGraphSession work
  match outcome with
  | .ok value => return value
  | .error error => throw (.graph error)

def onLoop {α : Type} (action : Loop.Action κ α) : Action κ α := do
  let (outcome, work) := action.run.run (graphSession (← get))
  setGraphSession work
  match outcome with
  | .ok value => return value
  | .error error => throw (.loop error)

def ofLoop {α : Type} : Loop.Answer κ α → Action κ α
  | .ok value => return value
  | .error error => throw (.loop error)

def ofAlgebra {α : Type} : Except AlgebraError α → Action κ α
  | .ok value => return value
  | .error error => throw (.algebra error)

end Action

end Model

end Mechanism
