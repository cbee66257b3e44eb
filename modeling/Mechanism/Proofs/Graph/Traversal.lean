import Mechanism.Proofs.Graph.Cycles

/-!
The visits of a query as a loop over a stack. The stack holds the equations on the path, the last
one first, and what each of them has still to follow of its reads. The loop comes to an end, with
the store and the cycle of the recursive visit, and a cycle that it meets is one: each equation on
the path reads the one that was entered from it.
-/

open Relation (ReflTransGen TransGen)

namespace Mechanism.Graph

variable {κ : Type} [Scalar κ] {limit : Nat} {graph : Graph κ}

abbrev Stack := List (Nat × List Symbol)

/-- The equations on the stack, from the one that was asked for to the one that is visited. -/
def Stack.path (stack : Stack) : List Nat := (stack.map Prod.fst).reverse

def readsAt (graph : Graph κ) (index : Nat) : List Symbol :=
  (graph.nodes[index]?.map Node.reads).getD []

theorem readsAt_eq {index : Nat} {node : Node κ} (found : graph.nodes[index]? = some node) :
    graph.readsAt index = node.reads := by
  rw [readsAt, found, Option.map_some, Option.getD_some]

/-- The loop, with this store and this stack, ends with the outcome. In each round it looks at the
first read that the top of the stack has still to follow. -/
inductive Walks (graph : Graph κ) : Store κ → Stack → Visit κ → Prop where
  | done {store : Store κ} : Walks graph store [] (store, none)
  | undefined {store : Store κ} {index : Nat} {read : Symbol} {reads : List Symbol} {stack : Stack}
      {outcome : Visit κ} (missing : graph.liveIndex? read = none)
      (rest : Walks graph store ((index, reads) :: stack) outcome) :
      Walks graph store ((index, read :: reads) :: stack) outcome
  | cached {store : Store κ} {index next : Nat} {read : Symbol} {reads : List Symbol}
      {stack : Stack} {outcome : Visit κ} (live : graph.liveIndex? read = some next)
      (isCached : store.isCached read = true)
      (rest : Walks graph store ((index, reads) :: stack) outcome) :
      Walks graph store ((index, read :: reads) :: stack) outcome
  | again {store : Store κ} {index next : Nat} {read : Symbol} {reads : List Symbol} {stack : Stack}
      (live : graph.liveIndex? read = some next) (stale : store.isCached read = false)
      (onPath : next ∈ Stack.path ((index, reads) :: stack)) :
      Walks graph store ((index, read :: reads) :: stack)
        (store, some ((Stack.path ((index, reads) :: stack)).dropWhile fun other => other != next))
  | enter {store : Store κ} {index next : Nat} {read : Symbol} {reads : List Symbol} {stack : Stack}
      {outcome : Visit κ} (live : graph.liveIndex? read = some next)
      (stale : store.isCached read = false)
      (offPath : next ∉ Stack.path ((index, reads) :: stack))
      (rest : Walks graph store ((next, graph.readsAt next) :: (index, reads) :: stack) outcome) :
      Walks graph store ((index, read :: reads) :: stack) outcome
  | leave {store : Store κ} {index : Nat} {node : Node κ} {stack : Stack} {outcome : Visit κ}
      (found : graph.nodes[index]? = some node)
      (rest : Walks graph (store.insert node.symbol (node.value.substitute store.lookup)) stack
        outcome) :
      Walks graph store ((index, []) :: stack) outcome

def stackOf (graph : Graph κ) (symbol : Symbol) (index : Nat) : Stack :=
  if graph.store.isCached symbol then [] else [(index, graph.readsAt index)]

/-- The loop comes from the first stack to what a visit has come to, and goes on with the second
stack from there unless the visit has met a cycle. -/
def Passes (graph : Graph κ) (store : Store κ) (first second : Stack) : Visit κ → Prop
  | (later, some cycle) => graph.Walks store first (later, some cycle)
  | (later, none) => ∀ outcome, graph.Walks later second outcome → graph.Walks store first outcome

theorem Passes.of_walks {store later : Store κ} {first second third : Stack} {visited : Visit κ}
    (steps : ∀ outcome, graph.Walks later second outcome → graph.Walks store first outcome)
    (passes : graph.Passes later second third visited) :
    graph.Passes store first third visited := by
  rcases visited with ⟨last, _ | cycle⟩
  · exact fun outcome rest => steps outcome (passes outcome rest)
  · exact steps _ passes

theorem path_cons (index : Nat) (reads : List Symbol) (stack : Stack) :
    Stack.path ((index, reads) :: stack) = Stack.path stack ++ [index] := by
  simp [Stack.path]

variable {index : Nat} {stack : Stack}

theorem foldl_follow_passes {enter : Nat → Store κ → Visit κ} {path : List Nat}
    (path_eq : ∀ reads, Stack.path ((index, reads) :: stack) = path)
    (enters : ∀ next reads store, next < graph.nodes.length → next ∉ path →
      graph.Passes store ((next, graph.readsAt next) :: (index, reads) :: stack)
        ((index, reads) :: stack) (enter next store))
    (reads : List Symbol) (store : Store κ) :
    graph.Passes store ((index, reads) :: stack) ((index, []) :: stack)
      (reads.foldl (graph.follow path enter) (store, none)) := by
  induction reads generalizing store with
  | nil => exact fun _ rest => rest
  | cons head tail ih =>
      rw [List.foldl_cons]
      simp only [follow]
      split
      · rename_i missing
        exact Passes.of_walks (fun _ rest => .undefined missing rest) (ih store)
      · rename_i next live
        split
        · rename_i cached
          exact Passes.of_walks (fun _ rest => .cached live cached rest) (ih store)
        · rename_i stale
          rw [Bool.not_eq_true] at stale
          split
          · rename_i onPath
            rw [foldl_follow_cycle, ← path_eq tail]
            exact Walks.again live stale (path_eq tail ▸ List.contains_iff_mem.mp onPath)
          · rename_i offPath
            have isOff : next ∉ path := fun on => offPath (List.contains_iff_mem.mpr on)
            obtain ⟨_, node, nodeLive⟩ := liveIndex?_eq_some.mp live
            have entered := enters next tail store (node?_lt nodeLive) isOff
            have enterRound : ∀ outcome, graph.Walks store
                ((next, graph.readsAt next) :: (index, tail) :: stack) outcome →
                  graph.Walks store ((index, head :: tail) :: stack) outcome :=
              fun _ rest => .enter live stale (path_eq tail ▸ isOff) rest
            rcases visited : enter next store with ⟨later, _ | cycle⟩ <;> rw [visited] at entered
            · exact Passes.of_walks (fun outcome rest => enterRound outcome (entered outcome rest))
                (ih later)
            · rw [foldl_follow_cycle]
              exact enterRound _ entered

theorem visit_passes {fuel : Nat} (unique : (Stack.path ((index, []) :: stack)).Nodup)
    (within : ∀ other ∈ Stack.path ((index, []) :: stack), other < graph.nodes.length)
    (enough : graph.nodes.length < fuel + (Stack.path ((index, []) :: stack)).length)
    (store : Store κ) :
    graph.Passes store ((index, graph.readsAt index) :: stack) stack
      (graph.visit fuel (Stack.path ((index, []) :: stack)) index store) := by
  induction fuel generalizing index stack store with
  | zero =>
      have short := (unique.subperm fun other member => List.mem_range.mpr (within other member))
        |>.length_le
      rw [List.length_range] at short
      omega
  | succ fuel ih =>
      obtain ⟨node, found⟩ : ∃ node, graph.nodes[index]? = some node := by
        have bound := within index (by simp [path_cons])
        exact ⟨_, List.getElem?_eq_getElem bound⟩
      have path_eq : ∀ reads, Stack.path ((index, reads) :: stack) =
          Stack.path ((index, []) :: stack) := fun _ => rfl
      have enters : ∀ next reads store, next < graph.nodes.length →
          next ∉ Stack.path ((index, []) :: stack) →
          graph.Passes store ((next, graph.readsAt next) :: (index, reads) :: stack)
            ((index, reads) :: stack)
            (graph.visit fuel (Stack.path ((index, []) :: stack) ++ [next]) next store) := by
        intro next reads store bound offPath
        have same := path_cons next [] ((index, reads) :: stack)
        rw [path_eq reads] at same
        rw [← same]
        refine ih ?_ ?_ ?_ store
        · rw [same, ← List.concat_eq_append]
          exact (List.nodup_concat _ next).mpr ⟨offPath, unique⟩
        · intro other member
          rw [same, List.mem_append, List.mem_singleton] at member
          exact member.elim (within other) fun here => here ▸ bound
        · rw [same, List.length_append, List.length_singleton]
          omega
      have folded := foldl_follow_passes path_eq enters node.reads store
      rw [visit, found, readsAt_eq found]
      simp only
      split
      · rename_i later cycle same
        rw [same] at folded
        exact folded
      · rename_i later same
        rw [same] at folded
        exact fun outcome rest => folded outcome (.leave found rest)

theorem refresh_walks {symbol : Symbol} (found : graph.liveIndex? symbol = some index) :
    graph.Walks graph.store (graph.stackOf symbol index) (graph.refresh symbol index) := by
  obtain ⟨_, node, live⟩ := liveIndex?_eq_some.mp found
  unfold refresh stackOf
  split
  · exact Walks.done
  · have passes : graph.Passes graph.store [(index, graph.readsAt index)] []
        (graph.visit (graph.nodes.length + 1) [index] index graph.store) := by
      refine visit_passes ?_ ?_ ?_ graph.store
      · exact List.nodup_singleton index
      · simpa [Stack.path] using node?_lt live
      · simp [Stack.path]
    generalize graph.visit (graph.nodes.length + 1) [index] index graph.store = visited at passes ⊢
    rcases visited with ⟨later, _ | cycle⟩
    · exact passes _ Walks.done
    · exact passes

/-- The equations on the stack differ and depend on each other one after the other, the first of
them being the root, and each has still to follow some of its reads. -/
structure Tracked (graph : Graph κ) (root : Nat) (stack : Stack) : Prop where
  unique : (stack.map Prod.fst).Nodup
  chain : (stack.map Prod.fst).IsChain fun index other => graph.Relies other index
  below : ∀ entry ∈ stack, ReflTransGen graph.Relies root entry.1
  live : ∀ entry ∈ stack, ∃ node, graph.node? entry.1 = some node ∧
    ∀ read ∈ entry.2, read ∈ node.reads

variable {root next : Nat} {read : Symbol} {reads : List Symbol}

theorem Tracked.single {node : Node κ} (live : graph.node? root = some node) :
    graph.Tracked root [(root, graph.readsAt root)] where
  unique := List.nodup_singleton root
  chain := List.isChain_singleton root
  below := by
    intro entry member
    rw [List.mem_singleton.mp member]
  live := by
    intro entry member
    rw [List.mem_singleton.mp member]
    refine ⟨node, live, fun read among => ?_⟩
    rwa [readsAt_eq (node?_eq_some.mp live).1] at among

theorem stackOf_tracked {node : Node κ} (live : graph.node? index = some node) (symbol : Symbol) :
    graph.Tracked index (graph.stackOf symbol index) := by
  unfold stackOf
  split
  · exact ⟨List.nodup_nil, List.isChain_nil, nofun, nofun⟩
  · exact Tracked.single live

theorem Tracked.skip (tracked : graph.Tracked root ((index, read :: reads) :: stack)) :
    graph.Tracked root ((index, reads) :: stack) where
  unique := tracked.unique
  chain := tracked.chain
  below := by
    intro entry member
    rcases List.mem_cons.mp member with rfl | older
    · exact tracked.below (index, read :: reads) List.mem_cons_self
    · exact tracked.below entry (List.mem_cons_of_mem _ older)
  live := by
    intro entry member
    rcases List.mem_cons.mp member with rfl | older
    · obtain ⟨node, live, inside⟩ := tracked.live _ List.mem_cons_self
      exact ⟨node, live, fun other among => inside other (List.mem_cons_of_mem _ among)⟩
    · exact tracked.live entry (List.mem_cons_of_mem _ older)

theorem Tracked.relies (tracked : graph.Tracked root ((index, read :: reads) :: stack))
    (lawful : graph.Lawful limit) (found : graph.liveIndex? read = some next) :
    graph.Relies index next := by
  obtain ⟨node, live, inside⟩ := tracked.live _ List.mem_cons_self
  exact (relies_iff lawful).mpr ⟨mem_liveIndices.mpr ⟨node, live⟩,
    (mem_dependencies live).mpr ⟨read, inside read List.mem_cons_self, found⟩⟩

theorem Tracked.enter (tracked : graph.Tracked root ((index, read :: reads) :: stack))
    (lawful : graph.Lawful limit) (found : graph.liveIndex? read = some next)
    (offPath : next ∉ Stack.path ((index, reads) :: stack)) :
    graph.Tracked root ((next, graph.readsAt next) :: (index, reads) :: stack) := by
  obtain ⟨_, node, live⟩ := liveIndex?_eq_some.mp found
  have relies := tracked.relies lawful found
  have rest := tracked.skip
  have below : ReflTransGen graph.Relies root next :=
    (tracked.below _ List.mem_cons_self).tail relies
  refine ⟨?_, ?_, ?_, ?_⟩
  · refine List.nodup_cons.mpr ⟨fun member => offPath ?_, rest.unique⟩
    exact List.mem_reverse.mpr member
  · exact List.isChain_cons_cons.mpr ⟨relies, rest.chain⟩
  · intro entry member
    rcases List.mem_cons.mp member with rfl | older
    · exact below
    · exact rest.below entry older
  · intro entry member
    rcases List.mem_cons.mp member with rfl | older
    · refine ⟨node, live, fun read among => ?_⟩
      rwa [readsAt_eq (node?_eq_some.mp live).1] at among
    · exact rest.live entry older

theorem Tracked.leave {entry : Nat × List Symbol} (tracked : graph.Tracked root (entry :: stack)) :
    graph.Tracked root stack where
  unique := (List.nodup_cons.mp tracked.unique).2
  chain := tracked.chain.tail
  below := fun other member => tracked.below other (List.mem_cons_of_mem _ member)
  live := fun other member => tracked.live other (List.mem_cons_of_mem _ member)

theorem Tracked.circuit (tracked : graph.Tracked root ((index, read :: reads) :: stack))
    (lawful : graph.Lawful limit) (found : graph.liveIndex? read = some next)
    (onPath : next ∈ Stack.path ((index, reads) :: stack)) :
    Circuit graph.Relies
      ((Stack.path ((index, reads) :: stack)).dropWhile fun other => other != next) := by
  refine circuit_dropWhile (List.nodup_reverse.mpr tracked.skip.unique)
    (List.isChain_reverse.mpr tracked.skip.chain) ?_ (tracked.relies lawful found) onPath
  rw [path_cons, List.getLast?_concat]

/-- A cycle that the loop reports is one, and the equation that was asked for depends on it. -/
theorem Walks.circuit {store : Store κ} {outcome : Visit κ}
    (walks : graph.Walks store stack outcome) (lawful : graph.Lawful limit)
    (tracked : graph.Tracked root stack) {cycle : List Nat} (met : outcome.2 = some cycle) :
    Circuit graph.Relies cycle ∧ ∀ index ∈ cycle, ReflTransGen graph.Relies root index := by
  induction walks with
  | done => cases met
  | undefined _ _ ih | cached _ _ _ ih => exact ih tracked.skip met
  | @again store index next read reads stack live stale onPath =>
      cases met
      refine ⟨tracked.circuit lawful live onPath, fun other member => ?_⟩
      have onStack : other ∈ Stack.path ((index, reads) :: stack) :=
        (List.dropWhile_sublist _).subset member
      obtain ⟨entry, among, rfl⟩ := List.mem_map.mp (List.mem_reverse.mp onStack)
      exact tracked.skip.below entry among
  | enter live _ offPath _ ih => exact ih (tracked.enter lawful live offPath) met
  | leave _ _ ih => exact ih tracked.leave met

theorem reads_of_relies (lawful : graph.Lawful limit) {reader read : Nat}
    (relies : graph.Relies reader read) {first second : Symbol}
    (isReader : graph.symbolAt? reader = some first) (isRead : graph.symbolAt? read = some second) :
    graph.Reads second first := by
  obtain ⟨node, target, live, targetLive, member⟩ := relies
  rw [symbolAt?_of_node? live, Option.some.injEq] at isReader
  rw [symbolAt?_of_node? targetLive, Option.some.injEq] at isRead
  subst isReader
  subst isRead
  exact ⟨node, lawful.nodeOf?_symbol live, member,
    isDefined_iff.mpr ⟨target, lawful.nodeOf?_symbol targetLive⟩⟩

theorem below_of_relies (lawful : graph.Lawful limit) {root index : Nat}
    (path : ReflTransGen graph.Relies root index) {first last : Symbol}
    (isRoot : graph.symbolAt? root = some first) (isLast : graph.symbolAt? index = some last) :
    ReflTransGen graph.Reads last first := by
  induction path generalizing last with
  | refl =>
      rw [isRoot, Option.some.injEq] at isLast
      rw [isLast]
  | @tail middle index _ relies ih =>
      obtain ⟨node, target, live, targetLive, member⟩ := relies
      have named := symbolAt?_of_node? live
      exact ReflTransGen.head (reads_of_relies lawful ⟨node, target, live, targetLive, member⟩ named
        isLast) (ih named)

theorem Circuit.symbols (lawful : graph.Lawful limit) {cycle : List Nat}
    (circuit : Circuit graph.Relies cycle) :
    ∃ symbols, graph.cycleError cycle = .cyclicDependency (symbols.map Symbol.name) ∧
      Circuit (fun reader read => graph.Reads read reader) symbols ∧
        ∀ symbol ∈ symbols, ∃ index ∈ cycle, graph.symbolAt? index = some symbol := by
  obtain ⟨_, _, _, _, _, first, _, firstLive, _⟩ := circuit.closes
  let symbolOf := fun index => (graph.symbolAt? index).getD first.symbol
  have named : ∀ {index : Nat} {node : Node κ}, graph.node? index = some node →
      graph.symbolAt? index = some (symbolOf index) := by
    intro index node live
    simp only [symbolOf, symbolAt?_of_node? live, Option.getD_some]
  have members : ∀ index ∈ cycle, graph.symbolAt? index = some (symbolOf index) := by
    intro index member
    obtain ⟨_, _, _, live, _⟩ := circuit.exists_step member
    exact named live
  refine ⟨cycle.map symbolOf, ?_, circuit.map ?_ ?_, ?_⟩
  · rw [cycleError, List.filterMap_congr members, List.filterMap_eq_map']
  · rintro reader read ⟨node, target, live, targetLive, member⟩
    exact reads_of_relies lawful ⟨node, target, live, targetLive, member⟩ (named live)
      (named targetLive)
  · intro one oneMember other otherMember same
    obtain ⟨_, node, _, live, _⟩ := circuit.exists_step oneMember
    obtain ⟨_, target, _, targetLive, _⟩ := circuit.exists_step otherMember
    refine lawful.index_unique live targetLive ?_
    have first := (symbolAt?_of_node? live).symm.trans (named live)
    have second := (symbolAt?_of_node? targetLive).symm.trans (named targetLive)
    rw [← same] at second
    exact Option.some.inj (first.trans second.symm)
  · intro symbol member
    obtain ⟨index, among, rfl⟩ := List.mem_map.mp member
    exact ⟨index, among, members index among⟩

end Mechanism.Graph
