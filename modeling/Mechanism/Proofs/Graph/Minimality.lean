import Mechanism.Proofs.Graph.Revisions
import Mechanism.Proofs.Graph.Traversal

/-!
No more is forgotten and no more is evaluated than must be. A new binding takes out of the cache
what depends on the input. An evaluation puts in what the symbol depends on and what is not there,
each definition once, however many others read it, and leaves all other entries as they are.
-/

open Relation (ReflTransGen TransGen)

namespace Mechanism.Graph

open Mechanism.Graph.Action

variable {κ : Type} [Scalar κ] {limit : Nat} {graph : Graph κ} {simplifier : Simplifier κ}
  {session : Session κ}

theorem find?_foldl_evict (symbols : List Symbol) (store : Store κ) (symbol : Symbol) :
    (symbols.foldl Store.evict store).cache.find? symbol =
      if symbol ∈ symbols then none else store.cache.find? symbol := by
  induction symbols generalizing store with
  | nil => simp
  | cons head tail ih =>
      rw [List.foldl_cons, ih, Store.evict, Table.find?_erase]
      by_cases later : symbol ∈ tail
      · simp [later]
      · by_cases same : head = symbol <;> simp [later, same, Ne.symm]

theorem evaluations_foldl_evict (symbols : List Symbol) (store : Store κ) :
    (symbols.foldl Store.evict store).evaluations = store.evaluations := by
  induction symbols generalizing store with
  | nil => rfl
  | cons head tail ih => exact ih _

theorem bindInput_evicts (valid : graph.Valid limit) {symbol : Symbol} {value : Tensor κ}
    {after : Graph κ} (bound : bindInput symbol value graph = .ok after) (other : Symbol) :
    (TransGen graph.ReadBy symbol other → after.store.cache.find? other = none) ∧
      (¬TransGen graph.ReadBy symbol other →
        after.store.cache.find? other = graph.store.cache.find? other) := by
  obtain ⟨_, rfl⟩ := bindInput_ok bound
  have found := find?_foldl_evict (graph.dependents symbol) (graph.store.bind symbol value) other
  rw [← mem_dependents valid.toLawful valid.linked]
  exact ⟨fun member => found.trans (if_pos member), fun absent => found.trans (if_neg absent)⟩

/-- The second store differs from the first one by new entries for the symbols. There is one
evaluation for each, and they carry the present revision. -/
structure Filled (fresh : List Symbol) (before after : Store κ) : Prop where
  nodup : fresh.Nodup
  keeps : Store.Keeps before after
  evaluations : after.evaluations = before.evaluations + fresh.length
  stale : ∀ symbol ∈ fresh, before.isCached symbol = false
  entered : ∀ symbol ∈ fresh, after.cachedRevision? symbol = some before.revision
  others : ∀ symbol, symbol ∉ fresh → after.cache.find? symbol = before.cache.find? symbol

variable {fresh : List Symbol} {before after : Store κ} {symbol : Symbol}

theorem Filled.refl (store : Store κ) : Filled [] store store :=
  ⟨List.nodup_nil, .refl store, rfl, nofun, nofun, fun _ _ => rfl⟩

theorem find?_insert_store (store : Store κ) (symbol other : Symbol) (value : Tensor κ) :
    (store.insert symbol value).cache.find? other =
      if symbol = other then some ⟨value, store.revision⟩ else store.cache.find? other :=
  Table.find?_insert store.cache symbol other _

theorem Filled.insert (filled : Filled fresh before after) (stale : after.isCached symbol = false)
    (value : Tensor κ) : Filled (symbol :: fresh) before (after.insert symbol value) := by
  have new : symbol ∉ fresh := by
    intro member
    have entered := filled.entered symbol member
    rw [Store.cachedRevision?, Option.map_eq_some_iff] at entered
    obtain ⟨entry, found, _⟩ := entered
    rw [Store.isCached, Table.contains, found] at stale
    cases stale
  refine ⟨List.nodup_cons.mpr ⟨new, filled.nodup⟩, ⟨filled.keeps.bindings, filled.keeps.revision⟩,
    ?_, ?_, ?_, ?_⟩
  · change after.evaluations + 1 = _
    rw [filled.evaluations, List.length_cons]
    omega
  · intro other member
    rcases List.mem_cons.mp member with rfl | old
    · rwa [Store.isCached, Table.contains, ← filled.others other new]
    · exact filled.stale other old
  · intro other member
    rw [Store.cachedRevision?, find?_insert_store]
    split
    · exact congrArg some filled.keeps.revision
    · rename_i differs
      exact filled.entered other ((List.mem_cons.mp member).resolve_left (Ne.symm differs))
  · intro other absent
    rw [List.mem_cons, not_or] at absent
    rw [find?_insert_store, if_neg (Ne.symm absent.1)]
    exact filled.others other absent.2

def Stale (graph : Graph κ) (store : Store κ) (stack : Stack) : Prop :=
  ∀ entry ∈ stack, ∀ node, graph.node? entry.1 = some node → store.isCached node.symbol = false

def Below (graph : Graph κ) (root : Nat) (symbol : Symbol) : Prop :=
  ∃ index node, graph.node? index = some node ∧ node.symbol = symbol ∧
    ReflTransGen graph.Relies root index

variable {root index next : Nat} {read : Symbol} {reads : List Symbol} {stack : Stack}
  {store : Store κ} {node : Node κ}

theorem Stale.skip (stale : graph.Stale store ((index, read :: reads) :: stack)) :
    graph.Stale store ((index, reads) :: stack) := by
  intro entry member
  rcases List.mem_cons.mp member with rfl | older
  · exact stale (index, read :: reads) List.mem_cons_self
  · exact stale entry (List.mem_cons_of_mem _ older)

theorem Stale.enter (stale : graph.Stale store ((index, read :: reads) :: stack))
    (lawful : graph.Lawful limit) (found : graph.liveIndex? read = some next)
    (isStale : store.isCached read = false) :
    graph.Stale store ((next, graph.readsAt next) :: (index, reads) :: stack) := by
  intro entry member node live
  rcases List.mem_cons.mp member with rfl | older
  · rwa [lawful.symbol_of_definition (liveIndex?_eq_some.mp found).1 live]
  · exact stale.skip entry older node live

theorem Stale.leave (stale : graph.Stale store ((index, reads) :: stack))
    (lawful : graph.Lawful limit) (tracked : graph.Tracked root ((index, reads) :: stack))
    (live : graph.node? index = some node) (value : Tensor κ) :
    graph.Stale (store.insert node.symbol value) stack := by
  intro entry member other otherLive
  have apart : entry.1 ≠ index := by
    intro same
    exact (List.nodup_cons.mp tracked.unique).1 (List.mem_map.mpr ⟨entry, member, same⟩)
  have differs : node.symbol ≠ other.symbol := fun same =>
    apart (lawful.index_unique otherLive live same.symm)
  rw [Store.isCached, Table.contains, find?_insert_store, if_neg differs]
  exact stale entry (List.mem_cons_of_mem _ member) other otherLive

/-- The loop evaluates symbols on which the root depends and which are not cached, each of them
once. -/
theorem Walks.filled {outcome : Visit κ} (walks : graph.Walks store stack outcome)
    (lawful : graph.Lawful limit) (tracked : graph.Tracked root stack)
    (stale : graph.Stale store stack) (filled : Filled fresh before store)
    (below : ∀ symbol ∈ fresh, graph.Below root symbol) :
    ∃ all, Filled all before outcome.1 ∧ ∀ symbol ∈ all, graph.Below root symbol := by
  induction walks generalizing fresh with
  | done | again => exact ⟨fresh, filled, below⟩
  | undefined _ _ ih | cached _ _ _ ih => exact ih tracked.skip stale.skip filled below
  | enter live isStale offPath _ ih =>
      exact ih (tracked.enter lawful live offPath) (stale.enter lawful live isStale) filled below
  | @leave store index node stack outcome found _ ih =>
      obtain ⟨again, live, _⟩ := tracked.live (index, []) List.mem_cons_self
      obtain rfl : again = node := Option.some.inj ((node?_eq_some.mp live).1.symm.trans found)
      have isStale := stale (index, []) List.mem_cons_self again live
      refine ih tracked.leave (stale.leave lawful tracked live _) (filled.insert isStale _) ?_
      intro symbol member
      rcases List.mem_cons.mp member with rfl | old
      · exact ⟨index, again, live, rfl, tracked.below (index, []) List.mem_cons_self⟩
      · exact below symbol old

theorem stackOf_stale (lawful : graph.Lawful limit) (found : graph.liveIndex? symbol = some index) :
    graph.Stale graph.store (graph.stackOf symbol index) := by
  unfold stackOf
  split
  · nofun
  · rename_i isStale
    intro entry member node live
    rw [List.mem_singleton.mp member] at live
    rw [lawful.symbol_of_definition (liveIndex?_eq_some.mp found).1 live]
    exact Bool.eq_false_of_not_eq_true isStale

theorem Coherent.cached_below (coherent : graph.Coherent store) {other : Symbol}
    (below : ReflTransGen graph.Reads other symbol) (cached : store.isCached symbol = true) :
    store.isCached other = true := by
  induction below using ReflTransGen.head_induction_on with
  | refl => exact cached
  | @head other reader reads _ ih =>
      obtain ⟨value, found⟩ := Store.isCached_iff.mp ih
      obtain ⟨node, live, _, kept⟩ := coherent.cached found
      obtain ⟨again, alsoLive, member, defined⟩ := reads
      rw [live, Option.some.injEq] at alsoLive
      subst alsoLive
      exact kept other member defined

theorem refresh_filled (valid : graph.Valid limit) (found : graph.liveIndex? symbol = some index)
    (noCycle : (graph.refresh symbol index).2 = none) :
    ∃ fresh, Filled fresh graph.store (graph.refresh symbol index).1 ∧
      ∀ other, other ∈ fresh ↔
        ReflTransGen graph.Reads other symbol ∧ graph.store.isCached other = false := by
  have lawful := valid.toLawful
  obtain ⟨definition, node, live⟩ := liveIndex?_eq_some.mp found
  obtain rfl := lawful.symbol_of_definition definition live
  have visited := refresh_visited lawful found valid.coherent
  have cached := visited.cached noCycle node.symbol (List.mem_singleton_self _)
    (isDefined_iff.mpr ⟨node, lawful.nodeOf?_symbol live⟩)
  obtain ⟨fresh, filled, below⟩ := (refresh_walks found).filled lawful (stackOf_tracked live _)
    (stackOf_stale lawful found) (.refl _) nofun
  refine ⟨fresh, filled, fun other => ⟨fun member => ⟨?_, filled.stale other member⟩, ?_⟩⟩
  · obtain ⟨reached, target, targetLive, rfl, path⟩ := below other member
    exact below_of_relies lawful path (symbolAt?_of_node? live) (symbolAt?_of_node? targetLive)
  · rintro ⟨depends, wasStale⟩
    by_contra absent
    have now := visited.coherent.cached_below depends cached
    rw [Store.isCached, Table.contains, filled.others other absent] at now
    exact Bool.false_ne_true (wasStale.symm.trans now)

/-- In every session that can be reached, a new value of an input takes exactly those entries out of
the cache that depend on it, and leaves all others, with their values and their revisions. A query
for a live symbol that is answered puts in exactly the entries for the live symbols on which it
depends, itself among them, that had none: each with one evaluation and with the present revision,
and all other entries are left. -/
theorem work_minimal (tame : simplifier.Tame) (reachable : Reachable simplifier session) :
    (∀ symbol value after, bindInput symbol value session.graph = .ok after →
      after.store.evaluations = session.graph.store.evaluations ∧
        ∀ other,
          (TransGen session.graph.ReadBy symbol other → after.store.cache.find? other = none) ∧
          (¬TransGen session.graph.ReadBy symbol other →
            after.store.cache.find? other = session.graph.store.cache.find? other)) ∧
    ∀ symbol value later, session.graph.isDefined symbol = true →
      (valueOf symbol).perform session = (.ok value, later) →
        ∃ fresh, Filled fresh session.graph.store later.graph.store ∧
          ∀ other, other ∈ fresh ↔
            ReflTransGen session.graph.Reads other symbol ∧
              session.graph.store.isCached other = false := by
  have valid := (reachable.fit tame).valid
  refine ⟨fun symbol value after bound => ⟨?_, bindInput_evicts valid bound⟩,
    fun symbol value later defined answered => ?_⟩
  · obtain ⟨_, rfl⟩ := bindInput_ok bound
    exact evaluations_foldl_evict _ _
  · obtain ⟨node, found⟩ := isDefined_iff.mp defined
    obtain ⟨index, live⟩ := Option.isSome_iff_exists.mp defined
    have noInput := valid.toLawful.noInput found
    rw [perform_valueOf, perform_valueWith_defined _ noInput live] at answered
    have noCycle : (session.graph.refresh symbol index).2 = none := by
      cases met : (session.graph.refresh symbol index).2 with
      | none => rfl
      | some cycle =>
          rw [met] at answered
          cases answered
    obtain rfl : _ = later := congrArg Prod.snd answered
    exact refresh_filled valid live noCycle

theorem work_minimal_chained :
    (∃ value later fresh, (valueOf Chained.y).perform Chained.registered = (.ok value, later) ∧
      Filled fresh Chained.registered.graph.store later.graph.store ∧ Chained.y ∈ fresh) ∧
    ∃ queried after, queried = (Command.query Chained.y).apply Chained.registered ∧
      queried.graph.store.isCached Chained.y = true ∧
        bindInput Chained.x (.ofExpr .zero) queried.graph = .ok after ∧
          after.store.cache.find? Chained.y = none := by
  obtain ⟨_, fills⟩ := work_minimal Simplifier.keep_tame Chained.reachable
  obtain ⟨evicts, _⟩ := work_minimal Simplifier.keep_tame
    (Reachable.step (.query Chained.y) Chained.reachable trivial)
  refine ⟨?_, (Command.query Chained.y).apply Chained.registered, ?_⟩
  · have answered : ((valueOf Chained.y).perform Chained.registered).1.toOption.isSome = true := by
      with_unfolding_all decide
    obtain ⟨value, isValue⟩ := Option.isSome_iff_exists.mp answered
    obtain ⟨later, performed⟩ := perform_eq_ok isValue
    obtain ⟨fresh, filled, members⟩ := fills Chained.y value later (by decide) performed
    exact ⟨value, later, fresh, performed, filled,
      (members _).mpr ⟨ReflTransGen.refl, by with_unfolding_all decide⟩⟩
  · have readBy : ∀ read reader, (((Command.query Chained.y).apply
        Chained.registered).graph.nodeOf? reader).map Node.reads = some [read] →
          ((Command.query Chained.y).apply Chained.registered).graph.ReadBy read reader := by
      intro read reader reads
      obtain ⟨node, found, same⟩ := Option.map_eq_some_iff.mp reads
      exact ⟨node, found, same ▸ List.mem_cons_self⟩
    have first := readBy Chained.x Chained.m (by with_unfolding_all decide)
    have second := readBy Chained.m Chained.y (by with_unfolding_all decide)
    have bound : (bindInput Chained.x (.ofExpr .zero)
        ((Command.query Chained.y).apply Chained.registered).graph).toOption.isSome = true := by
      with_unfolding_all decide
    obtain ⟨after, isAfter⟩ := Option.isSome_iff_exists.mp bound
    have accepted := toOption_eq_some.mp isAfter
    exact ⟨after, rfl, by with_unfolding_all decide, accepted,
      ((evicts _ _ _ accepted).2 _).1 (TransGen.head first (TransGen.single second))⟩

end Mechanism.Graph
