import Mechanism.Graph.Basic

/-!
Levels of a graph: a live equation stands one level after the deepest live equation that it reads.
Where there are no levels, a cycle is reported as the list of its members, each of which reads the
next and the last the first.
-/

namespace Mechanism.Graph

variable {κ : Type} [Scalar κ]

def levelsWith (dependencies : Nat → List Nat) :
    Nat → List Nat → List (List Nat) → List (List Nat) × List Nat
  | 0, remaining, levels => (levels, remaining)
  | fuel + 1, remaining, levels =>
    let ready := remaining.filter fun index => !(dependencies index).any remaining.contains
    if ready.isEmpty then (levels, remaining)
    else
      levelsWith dependencies fuel (remaining.filter fun index => !ready.contains index)
        (levels ++ [ready])

def traceWith (dependencies : Nat → List Nat) (stuck : List Nat) : Nat → List Nat → Nat → List Nat
  | 0, walk, _ => walk
  | fuel + 1, walk, current =>
    match (dependencies current).find? stuck.contains with
    | none => walk
    | some next =>
      if walk.contains next then walk.dropWhile fun index => index != next
      else traceWith dependencies stuck fuel (walk ++ [next]) next

def traceCycle (graph : Graph κ) (stuck : List Nat) : List Nat :=
  match stuck with
  | [] => []
  | first :: _ => traceWith graph.dependencies stuck stuck.length [first] first

def findLevels (graph : Graph κ) : Except (List Nat) (List (List Nat)) :=
  let live := graph.liveIndices
  match levelsWith graph.dependencies live.length live [] with
  | (levels, []) => .ok levels
  | (_, stuck) => .error (graph.traceCycle stuck)

def cycleError (graph : Graph κ) (cycle : List Nat) : GraphError κ :=
  .cyclicDependency ((cycle.filterMap graph.symbolAt?).map Symbol.name)

end Mechanism.Graph
