import Mechanism.Graph.Order
import Mechanism.Graph.Sharing

/-!
Building a graph: every read is bound, the values are optimised, and the equations are put in
levels.

Plain aliases are intermediate equations whose value is another symbol. They are removed, their
readers read the other symbol, and the removed symbol stays known as an alias of it.
-/

namespace Mechanism.Graph

structure BuildReport where
  nodes : Nat
  levels : Nat
  operationsBefore : Nat
  operationsAfter : Nat
  simplificationFailures : Nat
  duplicatesFolded : Nat
  temporaries : Nat
  aliasesRemoved : Nat
  deriving DecidableEq, Repr

variable {κ : Type} [Scalar κ]

/-- The symbol that an equation merely renames, if the equation serves no other purpose. -/
def renames? (equation : Equation κ) : Option Symbol :=
  if equation.categories.isOnly .variable then
    equation.value.aliasTarget?.filter fun target => target != equation.symbol
  else none

def renamings (graph : Graph κ) : Table Symbol Symbol :=
  graph.equations.foldl (fun table equation =>
    match renames? equation with
    | some target => table.insert equation.symbol target
    | none => table) ∅

def chainEnd (table : Table Symbol Symbol) : Nat → Symbol → Symbol
  | 0, symbol => symbol
  | fuel + 1, symbol =>
    match table.find? symbol with
    | some next => chainEnd table fuel next
    | none => symbol

/-- The entry of the target at the place of an atom of the renaming symbol. -/
def retarget (ends : Table Symbol Symbol) (atom : Atom) : Option (Expr κ) := do
  let target ← ends.find? atom.symbol
  (target.entryAt atom.flatIndex).toOption

def removeAlias (ends : Table Symbol Symbol) (graph : Graph κ) (index : Nat) : Graph κ :=
  match graph.node? index with
  | none => graph
  | some node =>
    match ends.find? node.symbol with
    | some target =>
      { graph.removeNode index with
        aliases := graph.aliases.insert node.symbol (.ofSymbol target) }
    | none =>
      if node.reads.any ends.contains then
        graph.setValue index (node.value.substitute (retarget ends))
      else graph

def eliminateAliases (graph : Graph κ) : Graph κ × Nat :=
  let table := graph.renamings
  let ends : Table Symbol Symbol :=
    ⟨table.keys.map fun symbol => (symbol, chainEnd table (table.size + 1) symbol)⟩
  if table.isEmpty then (graph, 0)
  else (graph.liveIndices.foldl (removeAlias ends) graph, ends.size)

/-- The first equation that reads a symbol which is neither defined nor an input. -/
def unbound? (graph : Graph κ) : Option (GraphError κ) :=
  graph.liveNodes.findSome? fun node =>
    (node.reads.find? fun symbol =>
      !(graph.isDefined symbol || graph.isInput symbol)).map fun symbol =>
        .unboundSymbol symbol.name node.equation.name

def simplifyOne (state : Graph κ × Nat) (index : Nat) : Graph κ × Nat :=
  let (graph, failures) := state
  match graph.node? index with
  | none => state
  | some node =>
    match graph.simplifier.onTensor node.value with
    | .ok value => (graph.setValue index value, failures)
    | .error _ => (graph, failures + 1)

def simplifyValues (graph : Graph κ) : Graph κ × Nat :=
  graph.liveIndices.foldl simplifyOne (graph, 0)

structure Optimized (κ : Type) [Scalar κ] where
  graph : Graph κ
  supply : SymbolSupply
  failures : Nat
  folded : Nat
  temporaries : Nat
  aliases : Nat

def optimized (graph : Graph κ) (supply : SymbolSupply) : Optimized κ :=
  if graph.settings.optimize then
    let (graph, failures) := graph.simplifyValues
    let (graph, folded) := graph.foldDuplicates
    let (graph, temporaries, supply) :=
      if graph.settings.shareCommon then graph.shareRepeated supply else (graph, 0, supply)
    let (graph, aliases) := graph.eliminateAliases
    ⟨graph.relink, supply, failures, folded, temporaries, aliases⟩
  else ⟨graph, supply, 0, 0, 0, 0⟩

def levelsOrError (graph : Graph κ) : Action κ (List (List Nat)) :=
  match graph.findLevels with
  | .ok levels => return levels
  | .error cycle => throw (graph.cycleError cycle)

def finished (graph : Graph κ) (levels : List (List Nat)) : Graph κ :=
  { graph with levels := levels, store := graph.store.clearCache, built := true }

def Optimized.report (outcome : Optimized κ) (before after : Graph κ) : BuildReport where
  nodes := after.size
  levels := after.levels.length
  operationsBefore := before.operations
  operationsAfter := after.operations
  simplificationFailures := outcome.failures
  duplicatesFolded := outcome.folded
  temporaries := outcome.temporaries
  aliasesRemoved := outcome.aliases

def build : Action κ BuildReport := do
  let graph ← Action.getGraph
  match graph.unbound? with
  | some error => throw error
  | none => pure ()
  let graph := graph.relink
  Action.setGraph graph
  let _ ← levelsOrError graph
  let outcome := graph.optimized (← get).supply
  set (⟨outcome.graph, outcome.supply⟩ : Session κ)
  let levels ← levelsOrError outcome.graph
  let final := outcome.graph.finished levels
  Action.setGraph final
  return outcome.report graph final

end Mechanism.Graph
