import Mechanism.Proofs.Graph.Buildability
import Mechanism.Proofs.Graph.Extraction
import Mechanism.Proofs.Graph.Revisions
import Mechanism.Proofs.Graph.Roles

/-!
What a reduction leaves. The equations that are kept stand in their places with their values, levels
and caches, so that nothing that is asked about them sees what has been removed, and reductions to
less and less come to one reduction.
-/

open Relation (ReflTransGen)

namespace Mechanism

def CategorySet.Within (inner outer : CategorySet) : Prop :=
  ∀ category, inner.contains category = true → outer.contains category = true

theorem CategorySet.Within.intersects {inner outer set : CategorySet} (within : inner.Within outer)
    (meets : set.intersects inner = true) : set.intersects outer = true := by
  obtain ⟨category, member, inside⟩ := List.any_eq_true.mp meets
  exact List.any_eq_true.mpr ⟨category, member, within category inside⟩

theorem CategorySet.intersects_none (set : CategorySet) : set.intersects .none = false := by
  simp [intersects, none]

namespace Graph

variable {κ : Type} [Scalar κ] {limit : Nat} {before after graph : Graph κ} {needed : List Nat}

theorem closureWith_congr {α : Type} [BEq α] [LawfulBEq α] {next other : α → List α} {inside : List α}
    (closed : ∀ item ∈ inside, ∀ target ∈ next item, target ∈ inside)
    (same : ∀ item ∈ inside, other item = next item) (fuel : Nat) {reached frontier : List α}
    (within : ∀ item ∈ frontier, item ∈ inside) :
    closureWith other fuel reached frontier = closureWith next fuel reached frontier := by
  induction fuel generalizing reached frontier with
  | zero => rfl
  | succ fuel ih =>
      have following : frontier.flatMap other = frontier.flatMap next :=
        List.flatMap_congr fun item member => same item (within item member)
      rw [Search.closureWith_succ, Search.closureWith_succ, following]
      cases found : (Grouping.distinct (frontier.flatMap next)).filter
          fun item => !reached.contains item with
      | nil => rfl
      | cons head tail =>
          refine ih fun item member => ?_
          rw [← found, Search.mem_fresh] at member
          obtain ⟨source, among, target⟩ := member.1
          exact closed source (within source among) item target

theorem closure_subset (closed : graph.Closed needed) {output excluded : CategorySet}
    (stays : ∀ index, graph.Chosen output excluded index → index ∈ needed) {index : Nat}
    (member : index ∈ graph.closure (graph.roots output excluded)) : index ∈ needed := by
  obtain ⟨root, among, path⟩ := mem_closure_roots.mp member
  induction path with
  | refl => exact stays root (mem_roots.mp among)
  | tail earlier last ih =>
      exact closed.closed _ (ih (mem_closure_roots.mpr ⟨root, among, earlier⟩)) _ last

/-- The second graph is what is left of the first one when only the needed equations stay. -/
structure Restricts (needed : List Nat) (before after : Graph κ) : Prop where
  definitions : after.definitions = before.definitions
  inputs : after.inputs = before.inputs
  aliases : after.aliases = before.aliases
  built : after.built = before.built
  length : after.nodes.length = before.nodes.length
  symbolAt? : after.symbolAt? = before.symbolAt?
  node? : ∀ index, after.node? index = if index ∈ needed then before.node? index else none
  levels : after.levels = keepLevels needed before.levels
  bindings : after.store.bindings = before.store.bindings
  revision : after.store.revision = before.store.revision
  cache : ∀ symbol, after.isDefined symbol = true →
    after.store.cache.find? symbol = before.store.cache.find? symbol

theorem length_dropNode (graph : Graph κ) (index : Nat) :
    (graph.dropNode index).nodes.length = graph.nodes.length := by
  unfold dropNode
  split
  · rfl
  · exact List.length_modify ..

theorem length_foldl_dropNode (indices : List Nat) (graph : Graph κ) :
    (indices.foldl dropNode graph).nodes.length = graph.nodes.length := by
  induction indices generalizing graph with
  | nil => rfl
  | cons head tail ih => exact (ih _).trans (length_dropNode graph head)

theorem symbolAt?_foldl_dropNode (indices : List Nat) (graph : Graph κ) :
    (indices.foldl dropNode graph).symbolAt? = graph.symbolAt? := by
  induction indices generalizing graph with
  | nil => rfl
  | cons head tail ih => exact (ih _).trans (funext (symbolAt?_dropNode graph head))

theorem find?_cache_foldl_evict {symbols : List Symbol} {symbol : Symbol} (kept : symbol ∉ symbols)
    (store : Store κ) :
    (symbols.foldl Store.evict store).cache.find? symbol = store.cache.find? symbol := by
  induction symbols generalizing store with
  | nil => rfl
  | cons head tail ih =>
      rw [List.foldl_cons, ih (List.not_mem_of_not_mem_cons kept)]
      refine (Table.find?_erase store.cache head symbol).trans (if_neg ?_)
      rintro rfl
      exact kept List.mem_cons_self

theorem reduce_ok_iff {kept : CategorySet} {reduction : Reduction} :
    graph.reduce kept = .ok (reduction, after) ↔ ∃ needed, graph.needed kept .none = .ok needed ∧
      reduction = ⟨needed.length,
        (graph.liveIndices.filter fun index => !needed.contains index).length⟩ ∧
      after = ({ (graph.liveIndices.filter fun index => !needed.contains index).foldl
        dropNode graph with levels := keepLevels needed graph.levels } : Graph κ).relink := by
  unfold Graph.reduce
  cases graph.needed kept .none with
  | error reason =>
      constructor
      · intro reduced
        cases reduced
      · rintro ⟨_, found, _⟩
        cases found
  | ok needed =>
      constructor
      · intro reduced
        cases reduced
        exact ⟨needed, rfl, rfl, rfl⟩
      · rintro ⟨_, found, rfl, rfl⟩
        cases found
        rfl

theorem restricts_dropped (lawful : graph.Lawful limit) (needed : List Nat) :
    Restricts needed graph ({ (graph.liveIndices.filter fun index =>
      !needed.contains index).foldl dropNode graph with
        levels := keepLevels needed graph.levels } : Graph κ).relink := by
  have rest : ∀ index, index ∈ (graph.liveIndices.filter fun index => !needed.contains index) ↔
      index ∈ graph.liveIndices ∧ index ∉ needed := fun index => by simp
  generalize graph.liveIndices.filter (fun index => !needed.contains index) = indices at rest
  have dropped := foldl_dropNode_dropped indices graph
  have node? (index : Nat) : (indices.foldl dropNode graph).node? index =
      if index ∈ needed then graph.node? index else none := by
    rw [dropped.node?]
    by_cases kept : index ∈ needed
    · rw [if_pos kept, if_neg fun gone => ((rest index).mp gone).2 kept]
    · rw [if_neg kept]
      split
      · rfl
      · rename_i remains
        rw [Option.eq_none_iff_forall_ne_some]
        intro node live
        exact remains ((rest index).mpr ⟨mem_liveIndices.mpr ⟨node, live⟩, kept⟩)
  have store := dropped.store
  refine ⟨dropped.definitions, dropped.inputs, dropped.aliases, dropped.built,
    length_foldl_dropNode indices graph, symbolAt?_foldl_dropNode indices graph, node?, rfl, ?_, ?_, ?_⟩
  · change (indices.foldl dropNode graph).store.bindings = _
    rw [store, bindings_foldl_evict]
  · change (indices.foldl dropNode graph).store.revision = _
    rw [store, (Store.keeps_evict _ _).revision]
  · intro symbol defined
    change (indices.foldl dropNode graph).store.cache.find? symbol = _
    rw [store]
    apply find?_cache_foldl_evict
    intro evicted
    obtain ⟨index, gone, named⟩ := List.mem_filterMap.mp evicted
    obtain ⟨live, unneeded⟩ := (rest index).mp gone
    obtain ⟨node, found⟩ := mem_liveIndices.mp live
    rw [symbolAt?_of_node? found, Option.some.injEq] at named
    subst named
    obtain ⟨other, defines⟩ := Option.isSome_iff_exists.mp
      (show ((indices.foldl dropNode graph).liveIndex? node.symbol).isSome = true from defined)
    obtain ⟨before, member⟩ := (dropped.liveIndex?_iff rest).mp defines
    rw [lawful.liveIndex?_eq found, Option.some.injEq] at before
    exact unneeded (before ▸ member)

namespace Restricts

variable (restricts : Restricts needed before after) (closed : before.Closed needed)

include restricts

theorem node?_iff {index : Nat} {node : Node κ} :
    after.node? index = some node ↔ before.node? index = some node ∧ index ∈ needed := by
  rw [restricts.node?]
  split
  · rename_i member
    exact (and_iff_left member).symm
  · rename_i outside
    exact ⟨nofun, fun both => absurd both.2 outside⟩

theorem liveIndex?_iff {symbol : Symbol} {index : Nat} :
    after.liveIndex? symbol = some index ↔
      before.liveIndex? symbol = some index ∧ index ∈ needed := by
  simp only [liveIndex?_eq_some, restricts.definitions, restricts.node?_iff]
  constructor
  · rintro ⟨found, node, live, member⟩
    exact ⟨⟨found, node, live⟩, member⟩
  · rintro ⟨⟨found, node, live⟩, member⟩
    exact ⟨found, node, live, member⟩

theorem isInput_eq : after.isInput = before.isInput := by
  funext symbol
  rw [isInput, restricts.inputs, isInput]

theorem chosen_iff {output excluded : CategorySet} {index : Nat} :
    after.Chosen output excluded index ↔
      before.Chosen output excluded index ∧ index ∈ needed := by
  simp only [Chosen, restricts.node?_iff]
  constructor
  · rintro ⟨node, ⟨live, member⟩, chosen⟩
    exact ⟨⟨node, live, chosen⟩, member⟩
  · rintro ⟨⟨node, live, chosen⟩, member⟩
    exact ⟨node, ⟨live, member⟩, chosen⟩

theorem roots_eq {output excluded : CategorySet}
    (stays : ∀ index, before.Chosen output excluded index → index ∈ needed) :
    after.roots output excluded = before.roots output excluded := by
  have sorted (graph : Graph κ) : (graph.roots output excluded).Pairwise (· < ·) :=
    (pairwise_liveIndices graph).filter _
  refine (sorted after).eq_of_mem_iff (sorted before) fun index => ?_
  rw [mem_roots, mem_roots]
  exact restricts.chosen_iff.trans (and_iff_left_of_imp (stays index))

include closed

theorem mem_liveIndices_iff {index : Nat} : index ∈ after.liveIndices ↔ index ∈ needed := by
  rw [mem_liveIndices]
  constructor
  · rintro ⟨node, live⟩
    exact (restricts.node?_iff.mp live).2
  · intro member
    obtain ⟨node, live⟩ := mem_liveIndices.mp (closed.live index member)
    exact ⟨node, restricts.node?_iff.mpr ⟨live, member⟩⟩

theorem liveIndex?_read {index : Nat} {node : Node κ} (live : before.node? index = some node)
    (member : index ∈ needed) {read : Symbol} (among : read ∈ node.reads) :
    after.liveIndex? read = before.liveIndex? read := by
  cases found : before.liveIndex? read with
  | some other =>
      have depends := (mem_dependencies live).mpr ⟨read, among, found⟩
      exact restricts.liveIndex?_iff.mpr ⟨found, closed.closed index member other depends⟩
  | none =>
      rw [Option.eq_none_iff_forall_ne_some]
      intro other again
      have old := (restricts.liveIndex?_iff.mp again).1
      rw [found] at old
      cases old

theorem nodes_eq {index : Nat} (member : index ∈ needed) :
    after.nodes[index]? = before.nodes[index]? := by
  obtain ⟨node, live⟩ := mem_liveIndices.mp (closed.live index member)
  rw [(node?_eq_some.mp live).1, (node?_eq_some.mp (restricts.node?_iff.mpr ⟨live, member⟩)).1]

theorem dependencies_eq {index : Nat} (member : index ∈ needed) :
    after.dependencies index = before.dependencies index := by
  obtain ⟨node, live⟩ := mem_liveIndices.mp (closed.live index member)
  rw [dependencies, dependencies, restricts.nodes_eq closed member, (node?_eq_some.mp live).1]
  exact List.filterMap_congr fun read among => restricts.liveIndex?_read closed live member among

theorem needed_eq {output excluded : CategorySet}
    (stays : ∀ index, before.Chosen output excluded index → index ∈ needed) :
    after.needed output excluded = before.needed output excluded := by
  have closure : after.closure (before.roots output excluded) =
      before.closure (before.roots output excluded) := by
    rw [Graph.closure, Graph.closure, restricts.length]
    exact closureWith_congr closed.closed (fun _ member => restricts.dependencies_eq closed member)
      _ fun index member => stays index (mem_roots.mp member)
  unfold Graph.needed
  rw [restricts.built, restricts.roots_eq stays]
  cases found : before.roots output excluded with
  | nil => rfl
  | cons head tail => rw [found] at closure; simp only [closure]

/-- A list that can be extracted from what has stayed is the list that could be extracted before. -/
theorem extract_eq {output excluded : CategorySet}
    (stays : ∀ index, before.Chosen output excluded index → index ∈ needed) :
    after.extract output excluded = before.extract output excluded := by
  rw [Graph.extract_eq, Graph.extract_eq, restricts.needed_eq closed stays]
  cases found : before.needed output excluded with
  | error reason => rfl
  | ok smaller =>
      obtain ⟨_, _, rfl⟩ := needed_eq_ok.mp found
      have subset : ∀ index ∈ before.closure (before.roots output excluded), index ∈ needed :=
        fun _ member => closure_subset closed stays member
      generalize before.closure (before.roots output excluded) = smaller at subset
      have ordered : after.ordered smaller = before.ordered smaller := by
        rw [Graph.ordered, Graph.ordered, restricts.levels, flatten_keepLevels, List.filter_filter]
        refine List.filter_congr fun index _ => ?_
        simpa using subset index
      have listed : after.listed (before.ordered smaller) = before.listed (before.ordered smaller) := by
        have nodes : ((before.ordered smaller).filterMap fun index => after.nodes[index]?) =
            (before.ordered smaller).filterMap fun index => before.nodes[index]? := by
          refine List.filterMap_congr fun index member => restricts.nodes_eq closed (subset index ?_)
          simpa using (List.mem_filter.mp member).2
        rw [Graph.listed, Graph.listed, nodes, restricts.isInput_eq, restricts.inputs]
      simp only [Except.map, ordered, listed]

theorem answer_eq {supply : SymbolSupply} {more : Nat} (valid : before.Valid limit)
    (afterValid : after.Valid more) (built : before.built = true) {symbol : Symbol}
    (defined : after.isDefined symbol = true) :
    answer ⟨after, supply⟩ symbol = answer ⟨before, supply⟩ symbol := by
  have acyclic := valid.acyclic_of_built built
  have afterAcyclic := afterValid.acyclic_of_built (restricts.built.trans built)
  induction acyclic.apply symbol with
  | intro symbol _ ih =>
      obtain ⟨node, found⟩ := isDefined_iff.mp defined
      obtain ⟨index, defines, live⟩ := nodeOf?_eq_some.mp found
      obtain ⟨old, member⟩ := restricts.liveIndex?_iff.mp defines
      obtain ⟨oldLive, _⟩ := restricts.node?_iff.mp live
      have oldFound := nodeOf?_eq_some.mpr ⟨index, old, oldLive⟩
      have now : answer ⟨after, supply⟩ symbol = _ :=
        Graph.answer_eq afterValid found (afterAcyclic.below symbol)
      have formerly : answer ⟨before, supply⟩ symbol = _ :=
        Graph.answer_eq valid oldFound (acyclic.below symbol)
      rw [now, formerly]
      congr 1
      apply Tensor.substitute_congr
      intro atom inside
      have reads := (valid.toLawful.regular oldLive).mem_reads inside
      have same := restricts.liveIndex?_read closed oldLive member reads
      have alike : after.isDefined atom.symbol = before.isDefined atom.symbol := by
        rw [isDefined, same, isDefined]
      simp only [current, restricts.isInput_eq, Store.binding?, restricts.bindings, alike]
      split
      · rfl
      · split
        · rename_i lives
          rw [ih atom.symbol ⟨node, oldFound, reads, lives⟩ (alike.trans lives)]
        · rfl

end Restricts

theorem keepLevels_cons (needed level : List Nat) (levels : List (List Nat)) :
    keepLevels needed (level :: levels) =
      if level.filter needed.contains = [] then keepLevels needed levels
      else level.filter needed.contains :: keepLevels needed levels := by
  by_cases none : level.filter needed.contains = [] <;> simp [keepLevels, none]

theorem keepLevels_keepLevels {smaller larger : List Nat} (subset : smaller ⊆ larger)
    (levels : List (List Nat)) :
    keepLevels smaller (keepLevels larger levels) = keepLevels smaller levels := by
  have twice (level : List Nat) :
      (level.filter larger.contains).filter smaller.contains = level.filter smaller.contains := by
    rw [List.filter_filter]
    refine List.filter_congr fun index _ => ?_
    simpa using @subset index
  induction levels with
  | nil => rfl
  | cons level levels ih =>
      have shrinks := twice level
      rw [keepLevels_cons larger, keepLevels_cons smaller level]
      by_cases none : level.filter larger.contains = []
      · rw [none, List.filter_nil] at shrinks
        rw [if_pos none, if_pos shrinks.symm, ih]
      · rw [if_neg none, keepLevels_cons, shrinks, ih]

theorem size_eq_length (graph : Graph κ) : graph.size = graph.liveIndices.length := by
  rw [size, liveNodes_eq, List.length_filterMap_eq_countP, List.countP_eq_length]
  intro index member
  obtain ⟨node, live⟩ := mem_liveIndices.mp member
  rw [live, Option.isSome_some]

theorem Closed.length_unneeded (closed : graph.Closed needed) :
    (graph.liveIndices.filter fun index => !needed.contains index).length + needed.length =
      graph.size := by
  have kept : (graph.liveIndices.filter needed.contains).Perm needed := by
    refine (List.perm_ext_iff_of_nodup ((nodup_liveIndices graph).filter _) closed.nodup).mpr ?_
    intro index
    simpa using closed.live index
  rw [size_eq_length, ← kept.length_eq, Nat.add_comm]
  exact (List.length_eq_length_filter_add needed.contains).symm

theorem Restricts.size_eq (restricts : Restricts needed before after)
    (closed : before.Closed needed) : after.size = needed.length := by
  rw [size_eq_length]
  apply List.Perm.length_eq
  refine (List.perm_ext_iff_of_nodup (nodup_liveIndices after) closed.nodup).mpr fun index => ?_
  exact restricts.mem_liveIndices_iff closed

theorem chosen_of_within {narrower kept excluded : CategorySet} (within : narrower.Within kept)
    {index : Nat} (chosen : graph.Chosen narrower excluded index) : graph.Chosen kept .none index := by
  obtain ⟨node, live, meets, _⟩ := chosen
  exact ⟨node, live, within.intersects meets, node.equation.categories.intersects_none⟩

/-- What a reduction of a built graph to some categories comes to. -/
structure Reduced (session : Session κ) (kept : CategorySet) (reduction : Reduction)
    (after : Graph κ) : Prop where
  /-- What is left are the equations of these categories with all that they depend on. -/
  live : ∀ index, index ∈ after.liveIndices ↔ ∃ root node, session.graph.node? root = some node ∧
    node.equation.categories.intersects kept = true ∧ ReflTransGen session.graph.Needs root index
  unchanged : ∀ index ∈ after.liveIndices, after.node? index = session.graph.node? index
  counted : reduction.kept = after.size ∧ reduction.removed + after.size = session.graph.size
  again : after.reduce kept = .ok (⟨reduction.kept, 0⟩, after)
  extract : ∀ output excluded, output.Within kept →
    after.extract output excluded = session.graph.extract output excluded
  answers : ∀ symbol, after.isDefined symbol = true →
    answer { session with graph := after } symbol = answer session symbol
  cached : ∀ symbol, after.isDefined symbol = true →
    after.store.cache.find? symbol = session.graph.store.cache.find? symbol
  /-- A reduction to fewer categories leaves the same equations in the same order as it would have
  left without the first one. -/
  narrowed : ∀ narrower counts once, narrower.Within kept →
    session.graph.reduce narrower = .ok (counts, once) →
      ∃ others twice, after.reduce narrower = .ok (others, twice) ∧ others.kept = counts.kept ∧
        (∀ index, twice.node? index = once.node? index) ∧ twice.levels = once.levels ∧
          twice.order = once.order
  refused : ∀ narrower error, narrower.Within kept →
    session.graph.reduce narrower = .error error → after.reduce narrower = .error error

theorem Restricts.reduce_again (restricts : Restricts needed before after)
    (closed : before.Closed needed) {kept : CategorySet}
    (found : after.needed kept .none = .ok needed) (linked : after.relink = after) :
    after.reduce kept = .ok (⟨needed.length, 0⟩, after) := by
  have nothing : (after.liveIndices.filter fun index => !needed.contains index) = [] := by
    rw [List.filter_eq_nil_iff]
    intro index live
    simpa using (restricts.mem_liveIndices_iff closed).mp live
  have levels : keepLevels needed after.levels = after.levels := by
    rw [restricts.levels, keepLevels_keepLevels (List.Subset.refl needed)]
  refine reduce_ok_iff.mpr ⟨needed, found, by rw [nothing]; rfl, ?_⟩
  rw [nothing, levels]
  exact linked.symm

theorem Restricts.node?_narrowed {smaller : List Nat} {once twice : Graph κ}
    (restricts : Restricts needed before after) (subset : smaller ⊆ needed)
    (direct : Restricts smaller before once) (later : Restricts smaller after twice) (index : Nat) :
    twice.node? index = once.node? index := by
  rw [direct.node?, later.node?]
  split
  · rename_i member
    rw [restricts.node?, if_pos (subset member)]
  · rfl

theorem Restricts.levels_narrowed {smaller : List Nat} {once twice : Graph κ}
    (restricts : Restricts needed before after) (subset : smaller ⊆ needed)
    (direct : Restricts smaller before once) (later : Restricts smaller after twice) :
    twice.levels = once.levels := by
  rw [later.levels, restricts.levels, keepLevels_keepLevels subset, direct.levels]

/-- Reductions of a built graph are exact, and stay so when they are repeated. -/
theorem reduce_exact {simplifier : Simplifier κ} {session : Session κ} (tame : simplifier.Tame)
    (reachable : Reachable simplifier session) {kept : CategorySet} {reduction : Reduction}
    (reduced : session.graph.reduce kept = .ok (reduction, after)) :
    Reduced session kept reduction after := by
  have valid := (reachable.fit tame).valid
  have afterValid := valid.reduce reduced
  obtain ⟨needed, found, rfl, same⟩ := reduce_ok_iff.mp reduced
  obtain ⟨built, _, closure⟩ := needed_eq_ok.mp found
  have closed : session.graph.Closed needed := closure ▸ closed_closure_roots kept .none
  have restricts : Restricts needed session.graph after :=
    same ▸ restricts_dropped valid.toLawful needed
  have stays (narrower excluded : CategorySet) (within : narrower.Within kept) (index : Nat)
      (chosen : session.graph.Chosen narrower excluded index) : index ∈ needed := by
    rw [closure, mem_closure_roots]
    exact ⟨index, mem_roots.mpr (chosen_of_within within chosen), .refl⟩
  have alike (narrower : CategorySet) (within : narrower.Within kept) :
      after.needed narrower .none = session.graph.needed narrower .none :=
    restricts.needed_eq closed (stays narrower .none within)
  constructor
  · intro index
    rw [restricts.mem_liveIndices_iff closed, closure, mem_closure_roots]
    constructor
    · rintro ⟨root, among, path⟩
      obtain ⟨node, live, meets, _⟩ := mem_roots.mp among
      exact ⟨root, node, live, meets, path⟩
    · rintro ⟨root, node, live, meets, path⟩
      exact ⟨root, mem_roots.mpr
        ⟨node, live, meets, node.equation.categories.intersects_none⟩, path⟩
  · intro index live
    rw [restricts.node?, if_pos ((restricts.mem_liveIndices_iff closed).mp live)]
  · have size := restricts.size_eq closed
    exact ⟨size.symm, by rw [size, closed.length_unneeded]⟩
  · refine restricts.reduce_again closed ?_ (by rw [same]; rfl)
    rw [alike kept fun _ inside => inside, found]
  · intro output excluded within
    exact restricts.extract_eq closed (stays output excluded within)
  · intro symbol defined
    exact restricts.answer_eq closed valid afterValid built defined
  · exact restricts.cache
  · intro narrower counts once within direct
    obtain ⟨smaller, chosen, rfl, rfl⟩ := reduce_ok_iff.mp direct
    obtain ⟨_, _, least⟩ := needed_eq_ok.mp chosen
    have subset : smaller ⊆ needed := by
      intro index member
      rw [least] at member
      exact closure_subset closed (stays narrower .none within) member
    have one := restricts_dropped valid.toLawful smaller
    have other := restricts_dropped afterValid.toLawful smaller
    have levels := restricts.levels_narrowed subset one other
    refine ⟨_, _, reduce_ok_iff.mpr ⟨smaller, (alike narrower within).trans chosen, rfl, rfl⟩, rfl,
      restricts.node?_narrowed subset one other, levels, ?_⟩
    rw [order, order, levels, one.symbolAt?, other.symbolAt?, restricts.symbolAt?]
  · intro narrower error within fails
    have missing := alike narrower within
    unfold Graph.reduce at fails ⊢
    rw [missing]
    cases chosen : session.graph.needed narrower .none with
    | error reason =>
        rw [chosen] at fails
        cases fails
        rfl
    | ok smaller =>
        rw [chosen] at fails
        cases fails

namespace Chained

noncomputable def sensed : Session RealNumber :=
  Command.build.apply ((Command.register "s" s (.ofSymbol x) (.only .sensor)).apply probed)

theorem reachable_sensed : Reachable Simplifier.keep sensed := by
  refine Reachable.step .build (Reachable.step _ (Reachable.step (.issue "s" .scalar .real)
    reachable_built trivial) ?_) trivial
  exact ⟨by with_unfolding_all decide, Tensor.regular_ofSymbol (by with_unfolding_all decide)⟩

end Chained

theorem reduce_exact_chained : ∃ after,
    Chained.sensed.graph.reduce (.only .state) = .ok (⟨1, 1⟩, after) ∧
      Reduced Chained.sensed (.only .state) ⟨1, 1⟩ after := by
  have counted : ((Chained.sensed.graph.reduce (.only .state)).toOption.map (·.1)) = some ⟨1, 1⟩ := by
    with_unfolding_all decide
  obtain ⟨⟨reduction, after⟩, found, same⟩ := Option.map_eq_some_iff.mp counted
  obtain rfl : reduction = ⟨1, 1⟩ := same
  have reduced := toOption_eq_some.mp found
  exact ⟨after, reduced, reduce_exact Simplifier.keep_tame Chained.reachable_sensed reduced⟩

end Graph

end Mechanism
