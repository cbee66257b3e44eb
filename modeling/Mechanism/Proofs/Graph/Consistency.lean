import Mechanism.Proofs.Graph.Edits
import Mechanism.Proofs.Graph.Reachability

/-!
The tables of a graph agree with its equations in every session that can be reached: the definitions
by symbol, what each equation reads, the readers of each symbol, the cache and the levels.
-/

open Relation (ReflTransGen)

namespace Mechanism.Graph

variable {κ : Type} [Scalar κ] {limit more : Nat} {graph before after : Graph κ}

def Listed (graph : Graph κ) : Prop := ∀ node ∈ graph.nodes, node.reads = node.value.symbols

def OnceRead (graph : Graph κ) : Prop := ∀ symbol, (graph.readersOf symbol).Nodup

theorem Listed.modifyNode (listed : graph.Listed) (index : Nat) {change : Node κ → Node κ}
    (keeps : ∀ node, node.reads = node.value.symbols →
      (change node).reads = (change node).value.symbols) : (graph.modifyNode index change).Listed := by
  intro node member
  obtain ⟨position, found⟩ := List.mem_iff_getElem?.mp member
  simp only [Graph.modifyNode, List.getElem?_modify] at found
  obtain ⟨old, before, same⟩ := Option.map_eq_some_iff.mp found
  have reads := listed old (List.mem_of_getElem? before)
  subst same
  split
  · exact keeps old reads
  · exact reads

theorem Listed.setValue (listed : graph.Listed) (index : Nat) (value : Tensor κ) :
    (graph.setValue index value).Listed :=
  listed.modifyNode index fun _ _ => rfl

theorem Listed.removeNode (listed : graph.Listed) (index : Nat) : (graph.removeNode index).Listed :=
  listed.modifyNode index fun _ reads => reads

theorem Listed.appendNode (listed : graph.Listed) {node : Node κ}
    (reads : node.reads = node.value.symbols) : (graph.appendNode node).Listed := by
  intro other member
  rcases List.mem_append.mp member with old | new
  · exact listed other old
  · rwa [List.mem_singleton.mp new]

theorem Listed.edit (edit : Edit limit more before after) (listed : before.Listed) :
    after.Listed := by
  cases edit with
  | number | relink => exact listed
  | revalue => exact listed.setValue _ _
  | name => exact listed.appendNode rfl
  | inline => exact listed.removeNode _
  | rename => exact listed.removeNode _

theorem Listed.relink_onceRead (listed : graph.Listed) : graph.relink.OnceRead := by
  intro symbol
  rw [readersOf_eq]
  change (Grouping.valuesIn (Grouping.ofPairs _) symbol).Nodup
  rw [Grouping.valuesIn_ofPairs, Grouping.valuesOf]
  apply List.Nodup.filterMap
  · rintro ⟨first, index⟩ ⟨second, other⟩ value left right
    simp only [Option.mem_def, Option.ite_none_right_eq_some, Option.some.injEq, beq_iff_eq]
      at left right
    rw [left.1, left.2, right.1, right.2]
  · apply List.nodup_flatMap.mpr
    constructor
    · rintro ⟨node, index⟩ member
      simp only
      split
      · exact List.nodup_nil
      · have found := List.mem_zipIdx_iff_getElem?.mp member
        rw [listed node (List.mem_of_getElem? found)]
        exact (Grouping.nodup_distinct _).map fun _ _ same => (Prod.mk.inj same).1
    · have apart : (graph.nodes.zipIdx.map Prod.snd).Nodup := by
        rw [List.zipIdx_map_snd]
        exact List.nodup_range'
      refine (List.pairwise_map.mp apart).imp ?_
      rintro ⟨first, index⟩ ⟨second, other⟩ differ
      rw [Function.onFun, List.disjoint_left]
      intro pair left right
      simp only at left right
      split at left
      · cases left
      split at right
      · cases right
      obtain ⟨_, _, rfl⟩ := List.mem_map.mp left
      obtain ⟨_, _, same⟩ := List.mem_map.mp right
      exact differ (Prod.mk.inj same).2.symm

theorem OnceRead.entered (onceRead : graph.OnceRead) (linked : graph.Linked) {node : Node κ}
    (unique : node.reads.Nodup) : (graph.entered node).OnceRead := by
  intro symbol
  rw [readersOf_eq]
  change (Grouping.valuesIn (node.reads.foldl _ graph.consumers) symbol).Nodup
  rw [valuesIn_foldl_insert, ← readersOf_eq]
  refine List.nodup_append.mpr ⟨onceRead symbol, ?_, ?_⟩
  · exact List.nodup_replicate.mpr (List.nodup_iff_count_le_one.mp unique symbol)
  · intro index old other new same
    obtain ⟨reader, live, _⟩ := (linked symbol index).mp old
    have bound := node?_lt live
    rw [same, (List.mem_replicate.mp new).2] at bound
    exact absurd bound (lt_irrefl _)

def Stacked (dependencies : Nat → List Nat) : List Nat → List (List Nat) → Prop
  | _, [] => True
  | below, level :: higher =>
    (∀ index ∈ level, ∀ other ∈ dependencies index, other ∈ below) ∧
      Stacked dependencies (below ++ level) higher

variable {dependencies : Nat → List Nat} {items remaining below : List Nat}
  {levels : List (List Nat)} {height : Nat → Nat}

theorem stacked_append {lower higher : List (List Nat)} :
    Stacked dependencies below (lower ++ higher) ↔
      Stacked dependencies below lower ∧ Stacked dependencies (below ++ lower.flatten) higher := by
  induction lower generalizing below with
  | nil => simp [Stacked]
  | cons head tail ih => simp [Stacked, ih, and_assoc]

theorem levelsWith_stacked (fuel : Nat) (unique : items.Nodup)
    (inside : ∀ index, ∀ other ∈ dependencies index, other ∈ items)
    (filling : Filling dependencies items levels remaining height)
    (stacked : Stacked dependencies [] levels) :
    Stacked dependencies [] (levelsWith dependencies fuel remaining levels).1 := by
  induction fuel generalizing levels remaining height with
  | zero => exact stacked
  | succ fuel ih =>
      rw [levelsWith_succ]
      split
      · exact stacked
      · refine ih (filling.round unique inside) (stacked_append.mpr ⟨stacked, ?_, trivial⟩)
        intro index member other depends
        exact filling.full_of_ready inside member depends

theorem findLevels_stacked (found : graph.findLevels = .ok levels) :
    Stacked graph.dependencies [] levels := by
  have stacked := levelsWith_stacked graph.liveIndices.length (nodup_liveIndices graph)
    (fun _ _ => dependencies_live) (filling_start graph) trivial
  rwa [findLevels_eq_ok.mp found] at stacked

theorem Stacked.keepLevels {needed : List Nat} {fewer : Nat → List Nat}
    (closed : ∀ index ∈ needed, ∀ other ∈ dependencies index, other ∈ needed)
    (same : ∀ index ∈ needed, fewer index = dependencies index)
    (stacked : Stacked dependencies below levels) :
    Stacked fewer (below.filter needed.contains) (keepLevels needed levels) := by
  induction levels generalizing below with
  | nil => trivial
  | cons level higher ih =>
      have rest := ih stacked.2
      rw [List.filter_append] at rest
      rw [Graph.keepLevels, List.map_cons, List.filter_cons]
      split
      · refine ⟨?_, rest⟩
        intro index member other depends
        obtain ⟨among, kept⟩ := List.mem_filter.mp member
        have isNeeded : index ∈ needed := by simpa using kept
        rw [same index isNeeded] at depends
        exact List.mem_filter.mpr ⟨stacked.1 index among other depends,
          by simpa using closed index isNeeded other depends⟩
      · rename_i none
        have empty : level.filter needed.contains = [] := by simpa using none
        rwa [empty, List.append_nil] at rest

/-- What the tables of a graph say beyond its validity. -/
structure Arranged (graph : Graph κ) : Prop where
  listed : graph.Listed
  onceRead : graph.OnceRead
  stacked : graph.built = true → Stacked graph.dependencies [] graph.levels

variable {simplifier : Simplifier κ} {session : Session κ}

theorem Arranged.entered (arranged : graph.Arranged) (linked : graph.Linked) {node : Node κ}
    (reads : node.reads = node.value.symbols) : (graph.entered node).Arranged where
  listed := arranged.listed.appendNode reads
  onceRead := arranged.onceRead.entered linked (reads ▸ Grouping.nodup_distinct _)
  stacked := nofun

theorem Arranged.withStore (arranged : graph.Arranged) (store : Store κ) :
    ({ graph with store := store } : Graph κ).Arranged :=
  ⟨arranged.listed, arranged.onceRead, arranged.stacked⟩

theorem Arranged.change {before after : Session κ} (change : Change before after)
    (fit : Fit simplifier before) (arranged : before.graph.Arranged) : after.graph.Arranged := by
  cases change with
  | issue => exact arranged
  | input _ added =>
      rcases addInput_ok added with rfl | ⟨_, rfl⟩
      · exact arranged
      · exact ⟨arranged.listed, arranged.onceRead, nofun⟩
  | bind bound =>
      obtain ⟨_, rfl⟩ := bindInput_ok bound
      exact arranged.withStore _
  | define _ _ added =>
      rcases addEquation_ok added with ⟨_, rfl⟩ | ⟨_, _, _, _, rfl⟩
      · exact arranged
      · exact (arranged.entered fit.valid.linked rfl).withStore _
  | evaluate evaluates =>
      cases evaluates with
      | refresh => exact arranged.withStore _
  | relink => exact ⟨arranged.listed, arranged.listed.relink_onceRead, arranged.stacked⟩

theorem optimized_listed {supply : SymbolSupply} (orderly : graph.Orderly supply.next)
    (modest : graph.simplifier.Modest) (listed : graph.Listed) :
    (graph.optimized supply).graph.Listed := by
  have improved := optimized_improved orderly modest
  exact (optimized_edits orderly modest).invariant (orderly.toLawful.mono improved.le)
    (fun edit _ listed => listed.edit edit) listed

theorem optimized_onceRead {supply : SymbolSupply} (orderly : graph.Orderly supply.next)
    (modest : graph.simplifier.Modest) (listed : graph.Listed) (onceRead : graph.OnceRead) :
    (graph.optimized supply).graph.OnceRead := by
  have last := optimized_listed orderly modest listed
  rcases optimized_eq graph supply with ⟨same, _⟩ | ⟨same, _⟩
  · rwa [same]
  · rw [same] at last ⊢
    generalize (graph.simplifyValues.1.foldDuplicates.1.shareWanted supply).1.eliminateAliases.1 =
      passed at last ⊢
    exact (show passed.Listed from last).relink_onceRead

theorem Arranged.rebuilt (fit : Fit simplifier session) (modest : simplifier.Modest)
    (arranged : session.graph.Arranged) (orderly : session.graph.Orderly session.supply.next)
    {levels : List (List Nat)}
    (found : (session.graph.relink.optimized session.supply).graph.findLevels = .ok levels) :
    (session.rebuilt levels).graph.Arranged := by
  have isModest : session.graph.simplifier.Modest := fit.simplifier_eq ▸ modest
  have listed : session.graph.relink.Listed := arranged.listed
  exact ⟨optimized_listed orderly.relink isModest listed,
    optimized_onceRead orderly.relink isModest listed arranged.listed.relink_onceRead,
    fun _ => findLevels_stacked found⟩

theorem dropNode_listed (listed : graph.Listed) (index : Nat) : (graph.dropNode index).Listed := by
  unfold dropNode
  split
  · exact listed
  · exact listed.removeNode index

theorem foldl_dropNode_listed (indices : List Nat) (listed : graph.Listed) :
    (indices.foldl dropNode graph).Listed := by
  induction indices generalizing graph with
  | nil => exact listed
  | cons head tail ih => exact ih (dropNode_listed listed head)

theorem Arranged.reduce (arranged : graph.Arranged) {kept : CategorySet} {reduction : Reduction}
    (reduced : Graph.reduce graph kept = .ok (reduction, after)) : after.Arranged := by
  obtain ⟨needed, indices, closed, built, rest, rfl⟩ := reduce_eq_ok reduced
  have listed := foldl_dropNode_listed indices arranged.listed
  have dropped := foldl_dropNode_dropped indices graph
  refine ⟨listed, Listed.relink_onceRead listed, fun _ => ?_⟩
  exact (arranged.stacked built).keepLevels closed.closed
    fun index member => dropped.dependencies_eq rest closed member

theorem Attainable.arranged (modest : simplifier.Modest)
    (attainable : Attainable simplifier session) : session.graph.Arranged := by
  refine attainable.invariant (fun session => session.graph.Arranged) modest ?_
    (fun change fit arranged => arranged.change change fit)
    (fun fit arranged orderly found => arranged.rebuilt fit modest orderly found)
    (fun _ arranged reduced => arranged.reduce reduced)
  intro settings supply
  refine ⟨?_, fun symbol => List.nodup_nil, ?_⟩
  · intro node member
    cases member
  · intro built
    cases built

/-- The tables of a graph agree with its equations. -/
structure Consistent (graph : Graph κ) : Prop where
  /-- A symbol has one live definition at most, and the table of definitions leads to it. -/
  definitions : ∀ index node, graph.node? index = some node →
    graph.definitions.find? node.symbol = some index ∧
      ∀ other twin, graph.node? other = some twin → twin.symbol = node.symbol → other = index
  /-- Every node lists, once each, the symbols that occur in its value. -/
  reads : ∀ node ∈ graph.nodes, node.reads.Nodup ∧ ∀ symbol, symbol ∈ node.reads ↔
    ∃ entry ∈ node.value.entries, ∃ atom ∈ entry.occurrences, atom.symbol = symbol
  /-- The readers of a symbol are the live definitions that read it. -/
  readers : ∀ symbol, (graph.readersOf symbol).Nodup ∧ ∀ index,
    index ∈ graph.readersOf symbol ↔ ∃ node, graph.node? index = some node ∧ symbol ∈ node.reads
  /-- A cached symbol is live, and the live symbols that it reads are cached too. -/
  cached : ∀ symbol, graph.store.isCached symbol = true → ∃ node,
    graph.nodeOf? symbol = some node ∧ node.symbol = symbol ∧
      ∀ read ∈ node.reads, graph.isDefined read = true → graph.store.isCached read = true
  apart : ∀ index node, graph.node? index = some node → graph.isInput node.symbol = false
  /-- A built graph reads only what has a value, but for removed symbols that are read where they
  have no place, and its levels list every live definition once, above all the live ones that it
  reads. -/
  levels : graph.built = true → graph.Settled ∧ graph.levels.flatten.Perm graph.liveIndices ∧
    ∀ lower level higher, graph.levels = lower ++ level :: higher → ∀ index ∈ level, ∀ node,
      graph.node? index = some node → ∀ read ∈ node.reads, ∀ other,
        graph.liveIndex? read = some other → other ∈ lower.flatten

theorem Arranged.mem_reads (arranged : graph.Arranged) {node : Node κ} (member : node ∈ graph.nodes)
    (symbol : Symbol) : symbol ∈ node.reads ↔
      ∃ entry ∈ node.value.entries, ∃ atom ∈ entry.occurrences, atom.symbol = symbol := by
  rw [arranged.listed node member, Tensor.mem_symbols]
  constructor
  · rintro ⟨atom, among, same⟩
    obtain ⟨entry, inside, occurs⟩ := Tensor.mem_atoms.mp among
    exact ⟨entry, inside, atom, occurs, same⟩
  · rintro ⟨entry, inside, atom, occurs, same⟩
    exact ⟨atom, Tensor.mem_atoms.mpr ⟨entry, inside, occurs⟩, same⟩

theorem Arranged.levels_below (arranged : graph.Arranged) (built : graph.built = true)
    {lower higher : List (List Nat)} {level : List Nat}
    (same : graph.levels = lower ++ level :: higher) {index : Nat} (member : index ∈ level)
    {node : Node κ} (live : graph.node? index = some node) {read : Symbol} (among : read ∈ node.reads)
    {other : Nat} (found : graph.liveIndex? read = some other) : other ∈ lower.flatten := by
  have stacked := arranged.stacked built
  rw [same] at stacked
  have above := (stacked_append.mp stacked).2.1
  rw [List.nil_append] at above
  exact above index member other ((mem_dependencies live).mpr ⟨read, among, found⟩)

theorem Valid.consistent (valid : graph.Valid limit) (arranged : graph.Arranged) :
    graph.Consistent where
  definitions := fun _ _ live => ⟨valid.current live, fun _ _ other same =>
    valid.toLawful.index_unique other live same⟩
  reads := fun node member => ⟨arranged.listed node member ▸ Grouping.nodup_distinct _,
    arranged.mem_reads member⟩
  readers := fun symbol => ⟨arranged.onceRead symbol, valid.linked symbol⟩
  cached := by
    intro symbol cached
    obtain ⟨value, found⟩ := Store.isCached_iff.mp cached
    obtain ⟨node, live, _, known⟩ := valid.coherent.cached found
    exact ⟨node, live, valid.toLawful.symbol_eq live, known⟩
  apart := fun _ _ live => valid.toLawful.noInput (valid.toLawful.nodeOf?_symbol live)
  levels := by
    intro built
    obtain ⟨settled, _, perm, _, _⟩ := valid.leveled built
    exact ⟨settled, perm, fun _ _ _ same _ member _ live _ among _ found =>
      arranged.levels_below built same member live among found⟩

/-- Whatever has been done to a graph, and whether it failed or not, its tables agree with its
equations, as long as the simplifier introduces no symbols. -/
theorem reachable_consistent (modest : simplifier.Modest)
    (attainable : Attainable simplifier session) : session.graph.Consistent :=
  (attainable.fit modest).valid.consistent (attainable.arranged modest)

theorem reachable_consistent_outlying :
    Outlying.built.graph.built = true ∧ Outlying.built.graph.Consistent :=
  ⟨by with_unfolding_all decide,
    reachable_consistent Simplifier.keep_tame.toModest Outlying.attainable_built⟩

/-- A build removes a renaming although an entry that it does not have is read, so that what a built
graph reads need not have a value. -/
theorem outlying_unbound : Simplifier.Modest (Simplifier.keep : Simplifier RealNumber) ∧
    Attainable Simplifier.keep Outlying.built ∧ Outlying.built.graph.built = true ∧
      ¬Outlying.built.graph.Bound := by
  refine ⟨Simplifier.keep_tame.toModest, Outlying.attainable_built,
    by with_unfolding_all decide, fun bound => ?_⟩
  have lawful := (Outlying.attainable_built.fit Simplifier.keep_tame.toModest).valid.toLawful
  have found : Outlying.built.graph.unbound?.isSome = true := by with_unfolding_all decide
  rw [(unbound?_eq_none lawful).mpr bound] at found
  cases found

end Mechanism.Graph
