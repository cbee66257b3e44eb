import Mechanism.Graph.Basic

/-!
A graph at work, together with the numbers left for new symbols. An action may change both, and
keeps what it has changed when it fails.
-/

namespace Mechanism.Graph

structure Session (κ : Type) [Scalar κ] where
  graph : Graph κ
  supply : SymbolSupply

abbrev Action (κ : Type) [Scalar κ] := ExceptT (GraphError κ) (StateM (Session κ))

namespace Action

variable {κ : Type} [Scalar κ]

def getGraph : Action κ (Graph κ) := do
  let session ← get
  return session.graph

def setGraph (graph : Graph κ) : Action κ Unit :=
  modify fun session => { session with graph := graph }

/-- A change of the graph that is made as a whole or not at all. -/
def update (change : Graph κ → Except (GraphError κ) (Graph κ)) : Action κ Unit := do
  match change (← getGraph) with
  | .ok graph => setGraph graph
  | .error error => throw error

def freshSymbol (name : String) (shape : Shape) : Action κ Symbol := do
  let session ← get
  let (symbol, supply) := session.supply.fresh name shape
  set { session with supply := supply }
  return symbol

end Action

end Mechanism.Graph
