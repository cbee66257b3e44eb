import Mechanism.Graph.Registration
import Mechanism.Graph.Order

/-!
Values of symbols under the current bindings. A definition is evaluated when it is first asked
for, after everything that it reads, and its value is kept until something that it depends on
changes. Inputs without a binding stay symbolic.
-/

namespace Mechanism.Graph

variable {κ : Type} [Scalar κ]

/-- The store after a visit, and the cycle that the visit met, if any. -/
abbrev Visit (κ : Type) [Scalar κ] := Store κ × Option (List Nat)

/-- Goes on with what an equation reads, unless a cycle has been met: nothing is done for a symbol
that is cached or has no live equation, and one whose equation lies on the path closes a cycle. -/
def follow (graph : Graph κ) (path : List Nat) (enter : Nat → Store κ → Visit κ)
    (outcome : Visit κ) (read : Symbol) : Visit κ :=
  match outcome with
  | (store, some cycle) => (store, some cycle)
  | (store, none) =>
    match graph.liveIndex? read with
    | none => (store, none)
    | some next =>
      if store.isCached read then (store, none)
      else if path.contains next then
        (store, some (path.dropWhile fun other => other != next))
      else enter next store

/-- Evaluates an equation after all that it reads. The path leads from the equation that was asked
for to this one. -/
def visit (graph : Graph κ) : Nat → List Nat → Nat → Store κ → Visit κ
  | 0, _, _, store => (store, none)
  | fuel + 1, path, index, store =>
    match graph.nodes[index]? with
    | none => (store, none)
    | some node =>
      let enter := fun next store => visit graph fuel (path ++ [next]) next store
      match node.reads.foldl (graph.follow path enter) (store, none) with
      | (store, some cycle) => (store, some cycle)
      | (store, none) => (store.insert node.symbol (node.value.substitute store.lookup), none)

def refresh (graph : Graph κ) (symbol : Symbol) (index : Nat) : Visit κ :=
  if graph.store.isCached symbol then (graph.store, none)
  else graph.visit (graph.nodes.length + 1) [index] index graph.store

def valueWith : Nat → Symbol → Action κ (Tensor κ)
  | 0, symbol => throw (.unknownSymbol symbol.name)
  | fuel + 1, symbol => do
    let graph ← Action.getGraph
    if graph.isInput symbol then
      return (graph.store.binding? symbol).getD (.ofSymbol symbol)
    match graph.liveIndex? symbol with
    | some index =>
      let (store, cycle?) := graph.refresh symbol index
      Action.setGraph { graph with store := store }
      match cycle?, store.cached? symbol with
      | some cycle, _ => throw (graph.cycleError cycle)
      | none, some value => return value
      | none, none => throw (.unknownSymbol symbol.name)
    | none =>
      match graph.aliases.find? symbol with
      | none => throw (.unknownSymbol symbol.name)
      | some target =>
        let parts ← target.symbols.mapM fun part => do
          let value ← valueWith fuel part
          return (part, value)
        return target.substitute fun atom => do
          let (_, value) ← parts.find? fun entry => entry.1 = atom.symbol
          (value.entryAt atom.flatIndex).toOption

def valueOf (symbol : Symbol) : Action κ (Tensor κ) := do
  valueWith ((← Action.getGraph).aliases.size + 1) symbol

/-- The numbers of a symbol, if all that it depends on is bound to numbers. -/
def numbersOf (symbol : Symbol) : Action κ (Option (List κ)) := do
  let value ← valueOf symbol
  return value.numbers?

end Mechanism.Graph
