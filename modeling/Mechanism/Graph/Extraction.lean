import Mechanism.Graph.Session

/-!
Equations chosen by their categories, together with all that they depend on: as a list in order of
evaluation, or as what is left of the graph.
-/

namespace Mechanism

structure ExternalInput where
  symbol : Symbol
  shape : Shape
  categories : CategorySet
  deriving DecidableEq

/-- Equations in an order in which each reads only earlier ones and inputs. -/
structure EquationList (κ : Type) [Scalar κ] where
  equations : List (Equation κ)
  inputs : List ExternalInput

namespace EquationList

variable {κ : Type} [Scalar κ]

def length (list : EquationList κ) : Nat := list.equations.length

def position? (list : EquationList κ) (symbol : Symbol) : Option Nat :=
  list.equations.findIdx? fun equation => equation.symbol == symbol

def find? (list : EquationList κ) (symbol : Symbol) : Option (Equation κ) :=
  list.equations.find? fun equation => equation.symbol == symbol

end EquationList

namespace Graph

variable {κ : Type} [Scalar κ]

/-- The live equations in some category of the first set and in none of the second. -/
def roots (graph : Graph κ) (wanted unwanted : CategorySet) : List Nat :=
  graph.liveIndices.filter fun index =>
    (graph.node? index).any fun node =>
      node.equation.categories.intersects wanted && !node.equation.categories.intersects unwanted

def needed (graph : Graph κ) (wanted unwanted : CategorySet) : Except (GraphError κ) (List Nat) :=
  if !graph.built then .error .notBuilt
  else
    match graph.roots wanted unwanted with
    | [] => .error (.noMatchingCategory wanted)
    | roots => .ok (graph.closure roots)

/-- The equations for the output categories, in order of evaluation. An excluded equation is
listed all the same when another one reads it. -/
def extract (graph : Graph κ) (output excluded : CategorySet) :
    Except (GraphError κ) (EquationList κ) := do
  let needed ← graph.needed output excluded
  let ordered := graph.levels.flatten.filter needed.contains
  let nodes := ordered.filterMap fun index => graph.nodes[index]?
  let read := Grouping.distinct ((nodes.flatMap Node.reads).filter graph.isInput)
  let inputs := read.filterMap fun symbol =>
    (graph.inputs.find? symbol).map fun categories => ⟨symbol, symbol.shape, categories⟩
  return ⟨nodes.map Node.equation, inputs⟩

structure Reduction where
  kept : Nat
  removed : Nat
  deriving DecidableEq, Repr

def dropNode (graph : Graph κ) (index : Nat) : Graph κ :=
  match graph.symbolAt? index with
  | none => graph
  | some symbol =>
    { graph.removeNode index with
      store := graph.store.evict symbol }

def reduce (graph : Graph κ) (kept : CategorySet) :
    Except (GraphError κ) (Reduction × Graph κ) := do
  let needed ← graph.needed kept .none
  let unneeded := graph.liveIndices.filter fun index => !needed.contains index
  let remaining := unneeded.foldl dropNode graph
  let levels := (graph.levels.map fun level => level.filter needed.contains).filter fun level =>
    !level.isEmpty
  return (⟨needed.length, unneeded.length⟩, { remaining with levels := levels }.relink)

def keepOnly (categories : CategorySet) : Action κ Reduction := do
  match (← Action.getGraph).reduce categories with
  | .ok (reduction, graph) =>
    Action.setGraph graph
    return reduction
  | .error error => throw error

end Graph

end Mechanism
