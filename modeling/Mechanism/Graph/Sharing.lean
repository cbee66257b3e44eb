import Std.Data.HashMap
import Mechanism.Graph.Registration

/-!
Definitions that share work: equal values become references to the first of them, repeated
subexpressions get a symbol of their own, and such a symbol that ends up with one reader is put
back into it.
-/

namespace Mechanism.Graph

variable {κ : Type} [Scalar κ]

def setValue (graph : Graph κ) (index : Nat) (value : Tensor κ) : Graph κ :=
  graph.modifyNode index fun node => node.withValue value

structure Folding (κ : Type) [Scalar κ] where
  graph : Graph κ
  seen : List (Tensor κ × Symbol)
  folded : Nat

def foldStep (state : Folding κ) (index : Nat) : Folding κ :=
  match state.graph.node? index with
  | none => state
  | some node =>
    if node.value.operations = 0 then state
    else
      match state.seen.find? fun entry => entry.1 = node.value with
      | some (_, first) =>
        { state with
          graph := state.graph.setValue index (.ofSymbol first)
          folded := state.folded + 1 }
      | none => { state with seen := state.seen ++ [(node.value, node.symbol)] }

/-- Every later equation whose value equals an earlier one refers to the earlier symbol. -/
def foldDuplicates (graph : Graph κ) : Graph κ × Nat :=
  let state := graph.liveIndices.foldl foldStep ⟨graph, [], 0⟩
  (state.graph, state.folded)

abbrev Counts (κ : Type) [Scalar κ] := Std.HashMap (Expr κ) Nat

def countOf (counts : Counts κ) (expr : Expr κ) : Nat := counts.getD expr 0

def increment (expr : Expr κ) (counts : Counts κ) : Counts κ :=
  counts.insert expr (countOf counts expr + 1)

def isHoistable : Expr κ → Bool
  | .num _ => false
  | .atom _ => false
  | .mul [first, second] => first.asNumber?.isNone || !second.isLeaf
  | _ => true

/-- One more occurrence of an expression; on the first one the operands are counted too. -/
def enter (expr : Expr κ) (operands : Counts κ → Counts κ) (counts : Counts κ) : Counts κ :=
  let counted := increment expr counts
  if countOf counted expr = 1 then operands counted else counted

mutual
def countIn (counts : Counts κ) (expr : Expr κ) : Counts κ :=
  match expr with
  | .num _ => counts
  | .atom _ => counts
  | .add terms => enter expr (fun counted => countAll counted terms) counts
  | .mul operands => enter expr (fun counted => countAll counted operands) counts
  | .pow base exponent =>
    enter expr (fun counted => countIn (countIn counted base) exponent) counts
  | .call _ argument => enter expr (fun counted => countIn counted argument) counts
  | .angle y x => enter expr (fun counted => countIn (countIn counted y) x) counts
  | .cond _ left right chosen otherwise =>
    enter expr (fun counted =>
      countIn (countIn (countIn (countIn counted left) right) chosen) otherwise) counts
def countAll (counts : Counts κ) : List (Expr κ) → Counts κ
  | [] => counts
  | head :: tail => countAll (countIn counts head) tail
end

structure Hoisting (κ : Type) [Scalar κ] where
  named : Std.HashMap (Expr κ) Symbol
  /-- New symbols with their values, in the order of their making. -/
  temporaries : List (Symbol × Expr κ)
  nextName : Nat
  supply : SymbolSupply

abbrev Hoist (κ : Type) [Scalar κ] := StateM (Hoisting κ)

def temporaryName (number : Nat) : String := "_cse" ++ toString number

def nameTemporary (repeated value : Expr κ) : Hoist κ (Expr κ) := do
  let state ← get
  let (symbol, supply) := state.supply.fresh (temporaryName state.nextName) .scalar
  set { state with
    named := state.named.insert repeated symbol
    temporaries := state.temporaries ++ [(symbol, value)]
    nextName := state.nextName + 1
    supply := supply : Hoisting κ }
  return .atom (.whole symbol)

/-- What stands for a repeated expression: its symbol, or a new one for what `rebuild` makes of
it. -/
def shareAs (repeated : Expr κ → Bool) (expr : Expr κ) (rebuild : Hoist κ (Expr κ)) :
    Hoist κ (Expr κ) := do
  if isHoistable expr && repeated expr then
    match (← get).named[expr]? with
    | some symbol => return .atom (.whole symbol)
    | none =>
      let value ← rebuild
      nameTemporary expr value
  else rebuild

mutual
def shareIn (repeated : Expr κ → Bool) (expr : Expr κ) : Hoist κ (Expr κ) :=
  match expr with
  | .num _ => return expr
  | .atom _ => return expr
  | .add terms => shareAs repeated expr (Expr.sum <$> shareAll repeated terms)
  | .mul operands => shareAs repeated expr (Expr.product <$> shareAll repeated operands)
  | .pow base exponent =>
    shareAs repeated expr (do
      let base ← shareIn repeated base
      let exponent ← shareIn repeated exponent
      return .power base exponent)
  | .call function argument =>
    shareAs repeated expr (do
      let argument ← shareIn repeated argument
      return .apply function argument)
  | .angle y x =>
    shareAs repeated expr (do
      let y ← shareIn repeated y
      let x ← shareIn repeated x
      return .angleOf y x)
  | .cond relation left right chosen otherwise =>
    shareAs repeated expr (do
      let left ← shareIn repeated left
      let right ← shareIn repeated right
      let chosen ← shareIn repeated chosen
      let otherwise ← shareIn repeated otherwise
      return .choose relation left right chosen otherwise)
def shareAll (repeated : Expr κ → Bool) : List (Expr κ) → Hoist κ (List (Expr κ))
  | [] => return []
  | head :: tail => do
    let head ← shareIn repeated head
    let tail ← shareAll repeated tail
    return head :: tail
end

/-- The value of a scalar equation keeps its root, which would otherwise refer to itself. -/
def shareBelow (repeated : Expr κ → Bool) (expr : Expr κ) : Hoist κ (Expr κ) := do
  let operands ← shareAll repeated expr.children
  return expr.rebuild operands

def shareValue (repeated : Expr κ → Bool) (value : Tensor κ) : Hoist κ (Tensor κ) := do
  let entries ←
    if value.shape.isScalar then value.entries.mapM (shareBelow repeated)
    else value.entries.mapM (shareIn repeated)
  return ⟨value.shape, entries⟩

def namedValues (repeated : Expr κ → Bool) (equations : List (Equation κ)) :
    Std.HashMap (Expr κ) Symbol :=
  equations.foldl (fun named equation =>
    match equation.value.toExpr with
    | .error _ => named
    | .ok expr =>
      if isHoistable expr && repeated expr && !named.contains expr then
        named.insert expr equation.symbol
      else named) ∅

def usesOf (graph : Graph κ) (symbol : Symbol) : Nat :=
  total ((graph.equations.flatMap fun equation => equation.value.entries).map fun entry =>
    entry.occurrences.countP fun atom => atom.symbol == symbol)

def replaceSymbol (symbol : Symbol) (replacement : Expr κ) (atom : Atom) : Option (Expr κ) :=
  if atom.symbol = symbol then some replacement else none

def inlineOne (state : Graph κ × Nat) (temporary : Nat) : Graph κ × Nat :=
  let (graph, inlined) := state
  match graph.node? temporary with
  | none => state
  | some node =>
    match node.value.toExpr with
    | .error _ => state
    | .ok replacement =>
      let reads := fun index =>
        (graph.node? index).any fun other => other.reads.contains node.symbol
      match graph.liveIndices.find? fun index => index != temporary && reads index with
      | none => state
      | some reader =>
        let put := fun other : Node κ =>
          other.withValue (other.value.substitute (replaceSymbol node.symbol replacement))
        let graph := graph.modifyNode reader put
        (graph.removeNode temporary, inlined + 1)

/-- The outermost temporaries come first; how often a symbol is read is counted beforehand. -/
def inlineSingleUse (graph : Graph κ) (temporaries : List Nat) : Graph κ × Nat :=
  let single := temporaries.filter fun index =>
    (graph.symbolAt? index).any fun symbol => graph.usesOf symbol = 1
  single.reverse.foldl inlineOne (graph, 0)

def appendTemporary (graph : Graph κ) (temporary : Symbol × Expr κ) : Graph κ :=
  let value := Tensor.ofExpr temporary.2
  graph.appendNode
    (Node.ofEquation ⟨temporary.1.name, temporary.1, value, .only .variable⟩ value)

/-- Names every subexpression that occurs often enough. The equations of the new symbols stand at
the end; their numbers are given as well. -/
def nameRepeated (graph : Graph κ) (supply : SymbolSupply) : Graph κ × List Nat × SymbolSupply :=
  let counts := graph.equations.foldl (fun counts equation =>
    countAll counts equation.value.entries) ∅
  let repeated := fun key => graph.settings.minOccurrences ≤ countOf counts key
  let start : Hoisting κ :=
    ⟨namedValues repeated graph.equations, [], graph.nextTemporary, supply⟩
  let live := graph.liveIndices
  let (values, state) :=
    (graph.equations.mapM fun equation => shareValue repeated equation.value).run start
  let shared := (live.zip values).foldl (fun graph (index, value) => graph.setValue index value)
    { graph with nextTemporary := state.nextName }
  let created := (List.range state.temporaries.length).map (shared.nodes.length + ·)
  (state.temporaries.foldl appendTemporary shared, created, state.supply)

/-- Shares subexpressions that occur often enough, and says how many of the new symbols stay. -/
def shareRepeated (graph : Graph κ) (supply : SymbolSupply) : Graph κ × Nat × SymbolSupply :=
  let (named, created, supply) := graph.nameRepeated supply
  let (inlined, count) := named.inlineSingleUse created
  (inlined, created.length - count, supply)

end Mechanism.Graph
