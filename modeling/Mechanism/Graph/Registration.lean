import Mechanism.Graph.Session

/-!
Inputs, definitions and bindings. A symbol is bound once: registering the same definition again
changes nothing, and registering another one is an error.
-/

namespace Mechanism.Graph

variable {κ : Type} [Scalar κ]

def readingSymbols (graph : Graph κ) (symbol : Symbol) : List Symbol :=
  (graph.readersOf symbol).filterMap graph.symbolAt?

def dependents (graph : Graph κ) (symbol : Symbol) : List Symbol :=
  closureWith graph.readingSymbols (graph.nodes.length + 1) [] [symbol]

def invalidate (graph : Graph κ) (symbol : Symbol) : Graph κ :=
  { graph with store := (graph.dependents symbol).foldl Store.evict graph.store }

def bindInput (symbol : Symbol) (value : Tensor κ) (graph : Graph κ) :
    Except (GraphError κ) (Graph κ) :=
  if !graph.isInput symbol then .error (.notAnInput symbol.name)
  else if value.shape ≠ symbol.shape then
    .error (.shapeMismatch symbol.name symbol.shape value.shape)
  else .ok ({ graph with store := graph.store.bind symbol value }.invalidate symbol)

def addInput (symbol : Symbol) (categories : CategorySet) (graph : Graph κ) :
    Except (GraphError κ) (Graph κ) :=
  if categories.isEmpty then .error (.emptyCategory symbol.name)
  else
    match graph.equation? symbol, graph.inputs.find? symbol with
    | some equation, _ => .error (.duplicateSymbol symbol.name (.expression equation.name) .input)
    | none, some existing =>
      if existing = categories then .ok graph
      else .error (.duplicateSymbol symbol.name (.inputOf existing) (.inputOf categories))
    | none, none =>
      .ok { graph with inputs := graph.inputs.insert symbol categories, built := false }

/-- Makes a symbol an input and gives it a first value, if there is one. -/
def declareInput (symbol : Symbol) (categories : CategorySet) (initial : Option (Tensor κ)) :
    Action κ Unit := do
  Action.update (addInput symbol categories)
  match initial with
  | none => return
  | some value => Action.update (bindInput symbol value)

def appendNode (graph : Graph κ) (node : Node κ) : Graph κ :=
  { graph with
    nodes := graph.nodes ++ [node]
    definitions := graph.definitions.insert node.symbol graph.nodes.length }

def addEquation (name : String) (symbol : Symbol) (value : Tensor κ) (categories : CategorySet)
    (graph : Graph κ) : Except (GraphError κ) (Graph κ) :=
  let resolved := graph.resolveAliases value
  if categories.isEmpty then .error (.emptyCategory name)
  else if resolved.shape ≠ symbol.shape then
    .error (.shapeMismatch symbol.name symbol.shape resolved.shape)
  else if graph.isInput symbol then
    .error (.duplicateSymbol symbol.name .input (.expression name))
  else
    match graph.liveIndex? symbol >>= graph.node? with
    | some node =>
      let sameValue := node.registered = value ∨ node.value = resolved
      if sameValue ∧ node.equation.categories = categories then .ok graph
      else
        .error (.duplicateSymbol symbol.name
          (.definition node.equation.name node.value.entries) (.definition name resolved.entries))
    | none =>
      let node := Node.ofEquation ⟨name, symbol, resolved, categories⟩ value
      let consumers := node.reads.foldl
        (fun consumers read => Grouping.insert read graph.nodes.length consumers) graph.consumers
      .ok ({ graph.appendNode node with
        consumers := consumers
        aliases := graph.aliases.erase symbol
        built := false }.invalidate symbol)

def register (name : String) (symbol : Symbol) (value : Tensor κ) (categories : CategorySet) :
    Action κ Symbol := do
  Action.update (addEquation name symbol value categories)
  return symbol

/-- Defines a new symbol of the name and of the shape of the value. -/
def define (name : String) (value : Tensor κ) (categories : CategorySet) : Action κ Symbol := do
  let symbol ← Action.freshSymbol name value.shape
  register name symbol value categories

end Mechanism.Graph
