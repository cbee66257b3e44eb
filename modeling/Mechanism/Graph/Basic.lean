import Mechanism.Graph.Error
import Mechanism.Graph.Store
import Mechanism.Grouping
import Mechanism.Simplifier

/-!
Graphs of equations. An equation defines a symbol by a tensor of expressions and depends on the
equations whose symbols it reads. Equations are numbered in the order of registration, and one
that is no longer needed stays in its place as removed.
-/

namespace Mechanism

structure Equation (κ : Type) [Scalar κ] where
  name : String
  symbol : Symbol
  value : Tensor κ
  categories : CategorySet

namespace Graph

structure Settings where
  /-- Simplify values, fold equal definitions and remove plain aliases. -/
  optimize : Bool
  shareCommon : Bool
  /-- How often a subexpression occurs before it gets a name. -/
  minOccurrences : Nat
  /-- Whether values may be simplified at the same time; no answer depends on it. -/
  parallel : Bool
  deriving DecidableEq, Repr

namespace Settings

def standard : Settings := ⟨true, true, 2, true⟩

def unoptimized : Settings := ⟨false, false, 2, true⟩

def leastOccurrences : Nat := 2

def fault? (settings : Settings) : Option String :=
  if settings.minOccurrences < leastOccurrences then
    some ("min_occurrences must be >= " ++ toString leastOccurrences)
  else none

end Settings

structure Node (κ : Type) [Scalar κ] where
  equation : Equation κ
  /-- The symbols that the value reads, in the order of their first occurrence. -/
  reads : List Symbol
  /-- The value as it was handed in, whatever has become of it since. -/
  registered : Tensor κ
  removed : Bool

namespace Node

variable {κ : Type} [Scalar κ]

def ofEquation (equation : Equation κ) (registered : Tensor κ) : Node κ :=
  ⟨equation, equation.value.symbols, registered, false⟩

def symbol (node : Node κ) : Symbol := node.equation.symbol

def value (node : Node κ) : Tensor κ := node.equation.value

def withValue (node : Node κ) (value : Tensor κ) : Node κ :=
  { node with equation := { node.equation with value := value }, reads := value.symbols }

end Node

end Graph

structure Graph (κ : Type) [Scalar κ] where
  settings : Graph.Settings
  simplifier : Simplifier κ
  nodes : List (Graph.Node κ)
  /-- For each symbol that has ever been defined, the number of its last definition. -/
  definitions : Table Symbol Nat
  inputs : Table Symbol CategorySet
  /-- Symbols that a build removed, with the value that each stands for. -/
  aliases : Table Symbol (Tensor κ)
  /-- For each symbol, the live nodes that read it. -/
  consumers : List (Symbol × List Nat)
  levels : List (List Nat)
  built : Bool
  nextTemporary : Nat
  store : Graph.Store κ

namespace Graph

variable {κ : Type} [Scalar κ]

def ofSettings (settings : Settings) (simplifier : Simplifier κ) : Graph κ where
  settings := settings
  simplifier := simplifier
  nodes := []
  definitions := ∅
  inputs := ∅
  aliases := ∅
  consumers := []
  levels := []
  built := false
  nextTemporary := 0
  store := .empty

def new (settings : Settings) (simplifier : Simplifier κ) : Except (GraphError κ) (Graph κ) :=
  match settings.fault? with
  | some reason => .error (.invalidSettings reason)
  | none => .ok (ofSettings settings simplifier)

def standard : Graph κ := ofSettings .standard Simplifier.basic

def node? (graph : Graph κ) (index : Nat) : Option (Node κ) :=
  graph.nodes[index]?.filter fun node => !node.removed

def liveIndex? (graph : Graph κ) (symbol : Symbol) : Option Nat :=
  (graph.definitions.find? symbol).filter fun index => (graph.node? index).isSome

def liveIndices (graph : Graph κ) : List Nat :=
  (List.range graph.nodes.length).filter fun index => (graph.node? index).isSome

def liveNodes (graph : Graph κ) : List (Node κ) := graph.nodes.filter fun node => !node.removed

def equations (graph : Graph κ) : List (Equation κ) := graph.liveNodes.map Node.equation

def equation? (graph : Graph κ) (symbol : Symbol) : Option (Equation κ) := do
  let index ← graph.liveIndex? symbol
  let node ← graph.node? index
  return node.equation

def size (graph : Graph κ) : Nat := graph.liveNodes.length

def isInput (graph : Graph κ) (symbol : Symbol) : Bool := graph.inputs.contains symbol

def isDefined (graph : Graph κ) (symbol : Symbol) : Bool := (graph.liveIndex? symbol).isSome

def symbolAt? (graph : Graph κ) (index : Nat) : Option Symbol := graph.nodes[index]?.map Node.symbol

def levelSymbols (graph : Graph κ) : List (List Symbol) :=
  graph.levels.map fun level => level.filterMap graph.symbolAt?

def order (graph : Graph κ) : List Symbol := graph.levels.flatten.filterMap graph.symbolAt?

def dependencies (graph : Graph κ) (index : Nat) : List Nat :=
  match graph.nodes[index]? with
  | none => []
  | some node => node.reads.filterMap graph.liveIndex?

/-- What has been reached, with all that follows from the frontier of what is new. -/
def closureWith {α : Type} [BEq α] (next : α → List α) : Nat → List α → List α → List α
  | 0, reached, _ => reached
  | fuel + 1, reached, frontier =>
    let following := Grouping.distinct (frontier.flatMap next)
    match following.filter fun item => !reached.contains item with
    | [] => reached
    | fresh => closureWith next fuel (reached ++ fresh) fresh

def closure (graph : Graph κ) (roots : List Nat) : List Nat :=
  closureWith graph.dependencies (graph.nodes.length + 1) roots roots

def modifyNode (graph : Graph κ) (index : Nat) (change : Node κ → Node κ) : Graph κ :=
  { graph with nodes := graph.nodes.modify index change }

def removeNode (graph : Graph κ) (index : Nat) : Graph κ :=
  graph.modifyNode index fun node => { node with removed := true }

/-- The readers of every symbol, found again from the values of the live equations. -/
def relink (graph : Graph κ) : Graph κ :=
  let pairs := graph.nodes.zipIdx.flatMap fun (node, index) =>
    if node.removed then [] else node.reads.map fun symbol => (symbol, index)
  { graph with consumers := Grouping.ofPairs pairs }

def readersOf (graph : Graph κ) (symbol : Symbol) : List Nat :=
  ((graph.consumers.find? fun entry => entry.1 == symbol).map (·.2)).getD []

def operations (graph : Graph κ) : Nat :=
  total (graph.equations.map fun equation => equation.value.operations)

def resolveAliases (graph : Graph κ) (value : Tensor κ) : Tensor κ :=
  if graph.aliases.isEmpty then value
  else
    value.substitute fun atom => do
      let target ← graph.aliases.find? atom.symbol
      (target.entryAt atom.flatIndex).toOption

end Graph

end Mechanism
