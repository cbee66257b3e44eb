import Mechanism.Graph.Extraction
import Mechanism.Proofs.Graph.Registration

/-!
Equations that are needed for some categories, and graphs from which all others are removed.
-/

open Relation (ReflTransGen)

namespace Mechanism.Graph

variable {κ : Type} [Scalar κ] {limit : Nat} {graph : Graph κ}

theorem mem_roots {wanted unwanted : CategorySet} {index : Nat} :
    index ∈ graph.roots wanted unwanted ↔ ∃ node, graph.node? index = some node ∧
      node.equation.categories.intersects wanted = true ∧
        node.equation.categories.intersects unwanted = false := by
  rw [roots, List.mem_filter, mem_liveIndices]
  constructor
  · rintro ⟨⟨node, live⟩, chosen⟩
    rw [live] at chosen
    simp only [Option.any_some, Bool.and_eq_true, Bool.not_eq_true'] at chosen
    exact ⟨node, live, chosen⟩
  · rintro ⟨node, live, meets, avoids⟩
    exact ⟨⟨node, live⟩, by simp [live, meets, avoids]⟩

def Needs (graph : Graph κ) (index other : Nat) : Prop := other ∈ graph.dependencies index

theorem mem_closure {roots : List Nat} (unique : roots.Nodup)
    (live : ∀ root ∈ roots, root ∈ graph.liveIndices) {index : Nat} :
    index ∈ graph.closure roots ↔ ∃ root ∈ roots, ReflTransGen graph.Needs root index := by
  have within : ∀ index ∈ graph.liveIndices, index ∈ List.range graph.nodes.length := by
    intro index member
    exact (List.mem_filter.mp member).1
  have bounded : ∀ item, ∀ target ∈ graph.dependencies item,
      target ∈ List.range graph.nodes.length :=
    fun _ target member => within target (dependencies_live member)
  have found := Search.mem_closureWith_roots bounded unique
    (fun root among => within root (live root among)) index
  rwa [List.length_range] at found

/-- The equations that are needed: live ones, each once, with all that they depend on. -/
structure Closed (graph : Graph κ) (needed : List Nat) : Prop where
  nodup : needed.Nodup
  live : ∀ index ∈ needed, index ∈ graph.liveIndices
  closed : ∀ index ∈ needed, ∀ other ∈ graph.dependencies index, other ∈ needed

theorem roots_live {wanted unwanted : CategorySet} {index : Nat}
    (member : index ∈ graph.roots wanted unwanted) : index ∈ graph.liveIndices :=
  (List.mem_filter.mp member).1

theorem nodup_roots (wanted unwanted : CategorySet) : (graph.roots wanted unwanted).Nodup :=
  (nodup_liveIndices graph).filter _

theorem mem_closure_roots {wanted unwanted : CategorySet} {index : Nat} :
    index ∈ graph.closure (graph.roots wanted unwanted) ↔
      ∃ root ∈ graph.roots wanted unwanted, ReflTransGen graph.Needs root index :=
  mem_closure (nodup_roots wanted unwanted) fun _ member => roots_live member

theorem closed_closure_roots (wanted unwanted : CategorySet) :
    graph.Closed (graph.closure (graph.roots wanted unwanted)) where
  nodup := Search.nodup_closureWith (nodup_roots wanted unwanted)
  live := by
    intro index member
    obtain ⟨root, among, path⟩ := mem_closure_roots.mp member
    cases path with
    | refl => exact roots_live among
    | tail _ last => exact dependencies_live last
  closed := by
    intro index member other depends
    obtain ⟨root, among, path⟩ := mem_closure_roots.mp member
    exact mem_closure_roots.mpr ⟨root, among, path.tail depends⟩

theorem needed_eq_ok {wanted unwanted : CategorySet} {needed : List Nat} :
    graph.needed wanted unwanted = .ok needed ↔
      graph.built = true ∧ graph.roots wanted unwanted ≠ [] ∧
        needed = graph.closure (graph.roots wanted unwanted) := by
  unfold Graph.needed
  cases graph.built with
  | false => simp
  | true => cases graph.roots wanted unwanted <;> simp [eq_comm]

theorem symbolAt?_removeNode (graph : Graph κ) (index other : Nat) :
    (graph.removeNode index).symbolAt? other = graph.symbolAt? other := by
  simp only [symbolAt?, removeNode, modifyNode, List.getElem?_modify]
  cases graph.nodes[other]? with
  | none => rfl
  | some node => by_cases same : index = other <;> simp [same, Node.symbol]

/-- What has become of a graph when the given equations were dropped. -/
structure Dropped (indices : List Nat) (before after : Graph κ) : Prop where
  definitions : after.definitions = before.definitions
  inputs : after.inputs = before.inputs
  aliases : after.aliases = before.aliases
  levels : after.levels = before.levels
  built : after.built = before.built
  settings : after.settings = before.settings
  simplifier : after.simplifier = before.simplifier
  node? : ∀ index, after.node? index = if index ∈ indices then none else before.node? index
  store : after.store = (indices.filterMap before.symbolAt?).foldl Store.evict before.store
  lawful : ∀ {limit}, before.Lawful limit → after.Lawful limit

theorem symbolAt?_dropNode (graph : Graph κ) (index other : Nat) :
    (graph.dropNode index).symbolAt? other = graph.symbolAt? other := by
  unfold dropNode
  split
  · rfl
  · exact symbolAt?_removeNode graph index other

theorem dropNode_dropped (graph : Graph κ) (index : Nat) :
    Dropped [index] graph (graph.dropNode index) := by
  unfold dropNode
  split
  · rename_i nothing
    refine ⟨rfl, rfl, rfl, rfl, rfl, rfl, rfl, ?_, by simp [nothing], fun lawful => lawful⟩
    intro other
    split
    · rename_i same
      rw [List.mem_singleton.mp same, node?, Option.map_eq_none_iff.mp nothing]
      rfl
    · rfl
  · rename_i symbol found
    refine ⟨rfl, rfl, rfl, rfl, rfl, rfl, rfl, ?_, by simp [found], ?_⟩
    · intro other
      refine (node?_removeNode graph index other).trans ?_
      by_cases same : index = other
      · rw [if_pos same, if_pos (by simp [same])]
      · rw [if_neg same, if_neg (by simp [Ne.symm same])]
    · intro limit lawful
      exact (lawful.removeNode index).congr rfl rfl rfl rfl

theorem foldl_dropNode_dropped (indices : List Nat) (graph : Graph κ) :
    Dropped indices graph (indices.foldl dropNode graph) := by
  induction indices generalizing graph with
  | nil => exact ⟨rfl, rfl, rfl, rfl, rfl, rfl, rfl, by simp, rfl, fun lawful => lawful⟩
  | cons head tail ih =>
      have first := dropNode_dropped graph head
      have rest := ih (graph.dropNode head)
      refine ⟨rest.definitions.trans first.definitions, rest.inputs.trans first.inputs,
        rest.aliases.trans first.aliases, rest.levels.trans first.levels,
        rest.built.trans first.built, rest.settings.trans first.settings,
        rest.simplifier.trans first.simplifier, ?_, ?_,
        fun lawful => rest.lawful (first.lawful lawful)⟩
      · intro index
        rw [List.foldl_cons, rest.node?, first.node?]
        by_cases here : index = head <;> by_cases later : index ∈ tail <;> simp [here, later]
      · have same : (graph.dropNode head).symbolAt? = graph.symbolAt? :=
          funext (symbolAt?_dropNode graph head)
        rw [List.foldl_cons, rest.store, first.store, same, ← List.foldl_append,
          ← List.filterMap_append, List.singleton_append]

namespace Dropped

variable {after : Graph κ} {needed indices : List Nat} (dropped : Dropped indices graph after)
  (rest : ∀ index, index ∈ indices ↔ index ∈ graph.liveIndices ∧ index ∉ needed)

include dropped rest

theorem node?_iff {index : Nat} {node : Node κ} :
    after.node? index = some node ↔ graph.node? index = some node ∧ index ∈ needed := by
  rw [dropped.node?]
  constructor
  · intro found
    split at found
    · cases found
    · rename_i kept
      refine ⟨found, ?_⟩
      by_contra unneeded
      exact kept ((rest index).mpr ⟨mem_liveIndices.mpr ⟨node, found⟩, unneeded⟩)
  · rintro ⟨found, member⟩
    rw [if_neg, found]
    intro gone
    exact ((rest index).mp gone).2 member

theorem liveIndex?_iff {symbol : Symbol} {index : Nat} :
    after.liveIndex? symbol = some index ↔
      graph.liveIndex? symbol = some index ∧ index ∈ needed := by
  simp only [liveIndex?_eq_some, dropped.definitions, dropped.node?_iff rest]
  constructor
  · rintro ⟨found, node, live, member⟩
    exact ⟨⟨found, node, live⟩, member⟩
  · rintro ⟨⟨found, node, live⟩, member⟩
    exact ⟨found, node, live, member⟩

theorem nodeOf?_iff {symbol : Symbol} {node : Node κ} :
    after.nodeOf? symbol = some node ↔ ∃ index, graph.liveIndex? symbol = some index ∧
      graph.node? index = some node ∧ index ∈ needed := by
  rw [nodeOf?_eq_some]
  constructor
  · rintro ⟨index, found, live⟩
    obtain ⟨before, member⟩ := (dropped.liveIndex?_iff rest).mp found
    exact ⟨index, before, ((dropped.node?_iff rest).mp live).1, member⟩
  · rintro ⟨index, before, live, member⟩
    exact ⟨index, (dropped.liveIndex?_iff rest).mpr ⟨before, member⟩,
      (dropped.node?_iff rest).mpr ⟨live, member⟩⟩

theorem mem_liveIndices_iff (closed : graph.Closed needed) {index : Nat} :
    index ∈ after.liveIndices ↔ index ∈ needed := by
  rw [mem_liveIndices]
  constructor
  · rintro ⟨node, live⟩
    exact ((dropped.node?_iff rest).mp live).2
  · intro member
    obtain ⟨node, live⟩ := mem_liveIndices.mp (closed.live index member)
    exact ⟨node, (dropped.node?_iff rest).mpr ⟨live, member⟩⟩

theorem liveIndex?_read (closed : graph.Closed needed) {index : Nat} {node : Node κ}
    (live : graph.node? index = some node) (member : index ∈ needed) {read : Symbol}
    (among : read ∈ node.reads) : after.liveIndex? read = graph.liveIndex? read := by
  cases found : graph.liveIndex? read with
  | some other =>
      have depends := (mem_dependencies live).mpr ⟨read, among, found⟩
      exact (dropped.liveIndex?_iff rest).mpr ⟨found, closed.closed index member other depends⟩
  | none =>
      rw [Option.eq_none_iff_forall_ne_some]
      intro other again
      have before := ((dropped.liveIndex?_iff rest).mp again).1
      rw [found] at before
      cases before

theorem dependencies_eq (closed : graph.Closed needed) {index : Nat} (member : index ∈ needed) :
    after.dependencies index = graph.dependencies index := by
  obtain ⟨node, live⟩ := mem_liveIndices.mp (closed.live index member)
  have kept := (dropped.node?_iff rest).mpr ⟨live, member⟩
  rw [dependencies, dependencies, (node?_eq_some.mp live).1, (node?_eq_some.mp kept).1]
  apply List.filterMap_congr
  intro read among
  exact dropped.liveIndex?_read rest closed live member among

theorem cached?_read (lawful : graph.Lawful limit) (closed : graph.Closed needed) {index : Nat}
    {node : Node κ} (live : graph.node? index = some node)
    (member : index ∈ needed) {read : Symbol} (among : read ∈ node.reads) :
    after.store.cached? read = graph.store.cached? read := by
  rw [dropped.store, cached?_foldl_evict]
  split
  · rename_i gone
    obtain ⟨other, unneeded, named⟩ := List.mem_filterMap.mp gone
    obtain ⟨otherLive, outside⟩ := (rest other).mp unneeded
    obtain ⟨target, targetLive⟩ := mem_liveIndices.mp otherLive
    rw [symbolAt?_of_node? targetLive, Option.some.injEq] at named
    subst named
    have depends := (mem_dependencies live).mpr
      ⟨target.symbol, among, lawful.liveIndex?_eq targetLive⟩
    exact absurd (closed.closed index member other depends) outside
  · rfl

theorem coherent (lawful : graph.Lawful limit) (closed : graph.Closed needed)
    (coherent : graph.Coherent graph.store) : after.Coherent after.store := by
  have bindings : after.store.bindings = graph.store.bindings := by
    rw [dropped.store, bindings_foldl_evict]
  constructor
  · intro symbol value bound
    rw [Store.binding?, bindings] at bound
    rw [isInput, dropped.inputs]
    exact coherent.bound bound
  · intro symbol value found
    have kept : symbol ∉ indices.filterMap graph.symbolAt? ∧
        graph.store.cached? symbol = some value := by
      rw [dropped.store, cached?_foldl_evict] at found
      split at found
      · cases found
      · rename_i kept
        exact ⟨kept, found⟩
    obtain ⟨node, defined, rfl, known⟩ := coherent.cached kept.2
    obtain ⟨index, defines, live⟩ := nodeOf?_eq_some.mp defined
    have named := lawful.found (liveIndex?_eq_some.mp defines).1
    have member : index ∈ needed := by
      by_contra outside
      exact kept.1 (List.mem_filterMap.mpr
        ⟨index, (rest index).mpr ⟨mem_liveIndices.mpr ⟨node, live⟩, outside⟩, named⟩)
    have same : ∀ read ∈ node.reads, after.store.cached? read = graph.store.cached? read :=
      fun read among => dropped.cached?_read rest lawful closed live member among
    refine ⟨node, (dropped.nodeOf?_iff rest).mpr ⟨index, defines, live, member⟩, ?_, ?_⟩
    · apply Tensor.substitute_congr
      intro atom reads
      apply Store.lookup_congr bindings.symm
      rw [same]
      exact (lawful.regular live).mem_reads reads
    · intro read among defined
      rw [isDefined, dropped.liveIndex?_read rest closed live member among] at defined
      obtain ⟨value, old⟩ := Store.isCached_iff.mp (known read among defined)
      exact Store.isCached_iff.mpr ⟨value, by rw [same read among, old]⟩

theorem settled (closed : graph.Closed needed) (settled : graph.Settled) : after.Settled := by
  intro symbol node found read among
  obtain ⟨index, defines, live, member⟩ := (dropped.nodeOf?_iff rest).mp found
  rw [isDefined, dropped.liveIndex?_read rest closed live member among, isInput, dropped.inputs,
    Dangles, dropped.aliases]
  exact settled symbol node (nodeOf?_eq_some.mpr ⟨index, defines, live⟩) read among

theorem placed (placed : graph.Placed) : after.Placed :=
  fun _ _ live => placed ((dropped.node?_iff rest).mp live).1

end Dropped

def keepLevels (needed : List Nat) (levels : List (List Nat)) : List (List Nat) :=
  (levels.map fun level => level.filter needed.contains).filter fun level => !level.isEmpty

theorem flatten_keepLevels (needed : List Nat) (levels : List (List Nat)) :
    (keepLevels needed levels).flatten = levels.flatten.filter needed.contains := by
  rw [keepLevels, List.flatten_filter_not_isEmpty, List.filter_flatten]

theorem Dropped.leveled {after : Graph κ} {needed indices : List Nat}
    (dropped : Dropped indices graph after)
    (rest : ∀ index, index ∈ indices ↔ index ∈ graph.liveIndices ∧ index ∉ needed)
    (closed : graph.Closed needed) (leveled : graph.Leveled) :
    ({ after with levels := keepLevels needed graph.levels } : Graph κ).Leveled := by
  refine ⟨dropped.settled rest closed leveled.settled, ?_⟩
  obtain ⟨level, perm, ordered, isLevel⟩ := leveled.ordered
  refine ⟨level, ?_, ?_, ?_⟩
  · change (keepLevels needed graph.levels).flatten.Perm after.liveIndices
    rw [flatten_keepLevels]
    apply (List.perm_ext_iff_of_nodup _ (nodup_liveIndices after)).mpr
    · intro index
      rw [List.mem_filter, List.contains_iff_mem, perm.mem_iff,
        dropped.mem_liveIndices_iff rest closed]
      exact ⟨fun both => both.2, fun member => ⟨closed.live index member, member⟩⟩
    · exact (perm.nodup_iff.mpr (nodup_liveIndices graph)).filter _
  · change (keepLevels needed graph.levels).flatten.Pairwise _
    rw [flatten_keepLevels]
    exact ordered.sublist List.filter_sublist
  · constructor
    · intro index live
      have member := (dropped.mem_liveIndices_iff rest closed).mp live
      change ∀ other ∈ after.dependencies index, _
      rw [dropped.dependencies_eq rest closed member]
      exact isLevel.above index (closed.live index member)
    · intro index live
      have member := (dropped.mem_liveIndices_iff rest closed).mp live
      change _ ∨ ∃ other ∈ after.dependencies index, _
      rw [dropped.dependencies_eq rest closed member]
      exact isLevel.tight index (closed.live index member)

theorem reduce_eq_ok {kept : CategorySet} {reduction : Reduction} {after : Graph κ}
    (reduced : Graph.reduce graph kept = .ok (reduction, after)) :
    ∃ needed indices : List Nat, graph.Closed needed ∧ graph.built = true ∧
      (∀ index, index ∈ indices ↔ index ∈ graph.liveIndices ∧ index ∉ needed) ∧
        after = ({ indices.foldl dropNode graph with
          levels := keepLevels needed graph.levels } : Graph κ).relink := by
  cases found : graph.needed kept .none with
  | error reason =>
      rw [Graph.reduce, found] at reduced
      cases reduced
  | ok needed =>
      rw [Graph.reduce, found] at reduced
      have same := (Prod.mk.inj (Except.ok.inj reduced)).2
      obtain ⟨built, _, rfl⟩ := needed_eq_ok.mp found
      refine ⟨_, graph.liveIndices.filter fun index =>
        !(graph.closure (graph.roots kept .none)).contains index,
        closed_closure_roots kept .none, built, ?_, same.symm⟩
      intro index
      simp

theorem Valid.reduce (valid : graph.Valid limit) {kept : CategorySet} {reduction : Reduction}
    {after : Graph κ} (reduced : Graph.reduce graph kept = .ok (reduction, after)) :
    after.Valid limit := by
  obtain ⟨needed, indices, closed, built, rest, rfl⟩ := reduce_eq_ok reduced
  have dropped := foldl_dropNode_dropped indices graph
  constructor
  · exact (dropped.lawful valid.toLawful).congr rfl rfl rfl rfl
  · exact relink_linked _
  · have coherent := dropped.coherent rest valid.toLawful closed valid.coherent
    exact ⟨coherent.bound, coherent.cached⟩
  · intro _
    obtain ⟨settled, ordered⟩ := dropped.leveled rest closed (valid.leveled built)
    exact ⟨settled, ordered⟩

theorem Placed.reduce (placed : graph.Placed) {kept : CategorySet} {reduction : Reduction}
    {after : Graph κ} (reduced : Graph.reduce graph kept = .ok (reduction, after)) :
    after.Placed := by
  obtain ⟨needed, indices, _, _, rest, rfl⟩ := reduce_eq_ok reduced
  exact (foldl_dropNode_dropped indices graph).placed rest placed

end Mechanism.Graph
