import Mathlib.Data.List.Perm.Subperm
import Mechanism.Graph.Values
import Mechanism.Proofs.Graph.Levels

/-!
The cache of a graph. A cached value is the definition with all that is known put in its place, and
what it reads is cached as well. Evaluating a definition keeps this so, and ends with its value in
the cache unless it depends on itself.
-/

open Relation (ReflTransGen TransGen)

namespace Mechanism.Graph

variable {κ : Type} [Scalar κ] {limit : Nat} {graph : Graph κ}

namespace Store

variable {store : Store κ}

theorem cached?_insert (store : Store κ) (symbol other : Symbol) (value : Tensor κ) :
    (store.insert symbol value).cached? other =
      if symbol = other then some value else store.cached? other := by
  rw [cached?, insert, Table.find?_insert]
  split <;> rfl

theorem cached?_evict (store : Store κ) (symbol other : Symbol) :
    (store.evict symbol).cached? other =
      if symbol = other then none else store.cached? other := by
  rw [cached?, evict, Table.find?_erase]
  split <;> rfl

theorem isCached_iff {symbol : Symbol} :
    store.isCached symbol = true ↔ ∃ value, store.cached? symbol = some value := by
  simp [isCached, Table.contains, cached?, Option.isSome_iff_exists]

/-- A store with the same bindings that has lost no value. -/
structure Extends (before after : Store κ) : Prop where
  bindings : after.bindings = before.bindings
  cached : ∀ {symbol : Symbol} {value : Tensor κ},
    before.cached? symbol = some value → after.cached? symbol = some value

theorem Extends.refl (store : Store κ) : Extends store store := ⟨rfl, fun found => found⟩

theorem Extends.trans {first second third : Store κ} (left : Extends first second)
    (right : Extends second third) : Extends first third :=
  ⟨right.bindings.trans left.bindings, fun found => right.cached (left.cached found)⟩

theorem Extends.isCached {before after : Store κ} (grown : Extends before after) {symbol : Symbol}
    (cached : before.isCached symbol = true) : after.isCached symbol = true := by
  obtain ⟨value, found⟩ := isCached_iff.mp cached
  exact isCached_iff.mpr ⟨value, grown.cached found⟩

theorem lookup_congr {left right : Store κ} (bindings : left.bindings = right.bindings) {atom : Atom}
    (cached : left.cached? atom.symbol = right.cached? atom.symbol) :
    left.lookup atom = right.lookup atom := by
  rw [lookup, lookup, binding?, binding?, bindings, cached]

end Store

open Store (Extends)

/-- Only inputs are bound, and cached values are those of live definitions over the store. -/
structure Coherent (graph : Graph κ) (store : Store κ) : Prop where
  bound : ∀ {symbol : Symbol} {value : Tensor κ},
    store.binding? symbol = some value → graph.isInput symbol = true
  cached : ∀ {symbol : Symbol} {value : Tensor κ}, store.cached? symbol = some value →
    ∃ node, graph.nodeOf? symbol = some node ∧ value = node.value.substitute store.lookup ∧
      ∀ read ∈ node.reads, graph.isDefined read = true → store.isCached read = true

theorem Coherent.isDefined {store : Store κ} (coherent : graph.Coherent store) {symbol : Symbol}
    (cached : store.isCached symbol = true) : graph.isDefined symbol = true := by
  obtain ⟨value, found⟩ := Store.isCached_iff.mp cached
  obtain ⟨node, live, _⟩ := coherent.cached found
  exact isDefined_iff.mpr ⟨node, live⟩

theorem Coherent.cached?_eq_none {store : Store κ} (coherent : graph.Coherent store)
    {symbol : Symbol} (undefined : graph.isDefined symbol = false) :
    store.cached? symbol = none := by
  rw [Option.eq_none_iff_forall_ne_some]
  intro value found
  have defined := coherent.isDefined (Store.isCached_iff.mpr ⟨value, found⟩)
  rw [undefined] at defined
  cases defined

theorem substitute_extends (lawful : graph.Lawful limit) {before after : Store κ}
    (grown : Extends before after)
    (defined : ∀ symbol, after.isCached symbol = true → graph.isDefined symbol = true)
    {symbol : Symbol} {node : Node κ} (found : graph.nodeOf? symbol = some node)
    (known : ∀ read ∈ node.reads, graph.isDefined read = true → before.isCached read = true) :
    node.value.substitute after.lookup = node.value.substitute before.lookup := by
  apply Tensor.substitute_congr
  intro atom member
  apply Store.lookup_congr grown.bindings
  have reads : atom.symbol ∈ node.reads := (lawful.regular_of_nodeOf? found).mem_reads member
  cases old : before.cached? atom.symbol with
  | some value => exact grown.cached old
  | none =>
      rw [Option.eq_none_iff_forall_ne_some]
      intro value new
      have live := defined atom.symbol (Store.isCached_iff.mpr ⟨value, new⟩)
      obtain ⟨kept, still⟩ := Store.isCached_iff.mp (known atom.symbol reads live)
      rw [old] at still
      cases still

theorem Coherent.insert (lawful : graph.Lawful limit) {store : Store κ}
    (coherent : graph.Coherent store) {symbol : Symbol} {node : Node κ}
    (found : graph.nodeOf? symbol = some node)
    (known : ∀ read ∈ node.reads, graph.isDefined read = true → store.isCached read = true) :
    graph.Coherent (store.insert symbol (node.value.substitute store.lookup)) ∧
      Extends store (store.insert symbol (node.value.substitute store.lookup)) := by
  have grown : Extends store (store.insert symbol (node.value.substitute store.lookup)) := by
    refine ⟨rfl, ?_⟩
    intro other value old
    rw [Store.cached?_insert]
    split
    · rename_i same
      subst same
      obtain ⟨again, live, rfl, _⟩ := coherent.cached old
      rw [found, Option.some.injEq] at live
      rw [live]
    · exact old
  have defined : ∀ other,
      (store.insert symbol (node.value.substitute store.lookup)).isCached other = true →
        graph.isDefined other = true := by
    intro other cached
    obtain ⟨value, new⟩ := Store.isCached_iff.mp cached
    rw [Store.cached?_insert] at new
    split at new
    · rename_i same
      subst same
      exact isDefined_iff.mpr ⟨node, found⟩
    · exact coherent.isDefined (Store.isCached_iff.mpr ⟨value, new⟩)
  refine ⟨⟨coherent.bound, ?_⟩, grown⟩
  intro other value new
  rw [Store.cached?_insert] at new
  split at new
  · rename_i same
    subst same
    cases new
    refine ⟨node, found, (substitute_extends lawful grown defined found known).symm, ?_⟩
    intro read member live
    exact grown.isCached (known read member live)
  · obtain ⟨reader, live, rfl, kept⟩ := coherent.cached new
    refine ⟨reader, live, (substitute_extends lawful grown defined live kept).symm, ?_⟩
    intro read member readLive
    exact grown.isCached (kept read member readLive)

/-- Something on which the symbol depends depends on itself. -/
def ReachesCycle (graph : Graph κ) (symbol : Symbol) : Prop :=
  ∃ other, ReflTransGen graph.Reads other symbol ∧ TransGen graph.Reads other other

theorem ReachesCycle.of_read {read reader : Symbol} (reads : graph.Reads read reader)
    (cyclic : graph.ReachesCycle read) : graph.ReachesCycle reader := by
  obtain ⟨other, below, loop⟩ := cyclic
  exact ⟨other, below.tail reads, loop⟩

def Founded (graph : Graph κ) (store : Store κ) : Prop :=
  ∀ symbol, store.isCached symbol = true → Acc graph.Reads symbol

theorem Founded.insert {store : Store κ} (founded : graph.Founded store) {symbol : Symbol}
    {node : Node κ} (found : graph.nodeOf? symbol = some node)
    (known : ∀ read ∈ node.reads, graph.isDefined read = true → store.isCached read = true)
    (value : Tensor κ) : graph.Founded (store.insert symbol value) := by
  intro other cached
  rw [Store.isCached_iff, Store.cached?_insert] at cached
  split at cached
  · rename_i same
    subst same
    constructor
    rintro read ⟨reader, again, member, defined⟩
    rw [found, Option.some.injEq] at again
    subst again
    exact founded read (known read member defined)
  · exact founded other (Store.isCached_iff.mpr cached)

/-- What has come of visiting some symbols for the sake of one that depends on them. -/
structure Visited (graph : Graph κ) (reader : Symbol) (reads : List Symbol) (before : Store κ)
    (outcome : Visit κ) : Prop where
  coherent : graph.Coherent outcome.1
  grown : Extends before outcome.1
  cached : outcome.2 = none → ∀ read ∈ reads, graph.isDefined read = true →
    outcome.1.isCached read = true
  cyclic : ∀ cycle, outcome.2 = some cycle → graph.ReachesCycle reader
  founded : graph.Founded before → graph.Founded outcome.1

theorem Visited.unchanged {reader : Symbol} {reads : List Symbol} {store : Store κ}
    (coherent : graph.Coherent store)
    (cached : ∀ read ∈ reads, graph.isDefined read = true → store.isCached read = true) :
    graph.Visited reader reads store (store, none) where
  coherent := coherent
  grown := Extends.refl store
  cached := fun _ => cached
  cyclic := nofun
  founded := id

theorem Visited.closed {reader : Symbol} {reads : List Symbol} {store : Store κ} (cycle : List Nat)
    (coherent : graph.Coherent store) (reaches : graph.ReachesCycle reader) :
    graph.Visited reader reads store (store, some cycle) where
  coherent := coherent
  grown := Extends.refl store
  cached := nofun
  cyclic := fun _ _ => reaches
  founded := id

theorem foldl_follow_cycle (path : List Nat) (enter : Nat → Store κ → Visit κ) (store : Store κ)
    (cycle : List Nat) (reads : List Symbol) :
    reads.foldl (graph.follow path enter) (store, some cycle) = (store, some cycle) := by
  induction reads with
  | nil => rfl
  | cons head tail ih => exact ih

/-- The equations from the one that was asked for to the one that is visited. -/
structure Path (graph : Graph κ) (path : List Nat) (symbol : Symbol) : Prop where
  nodup : path.Nodup
  below : ∀ index ∈ path, ∃ node, graph.node? index = some node ∧
    ReflTransGen graph.Reads symbol node.symbol

variable {path : List Nat} {enter : Nat → Store κ → Visit κ} {symbol : Symbol} {node : Node κ}

def Enters (graph : Graph κ) (path : List Nat) (enter : Nat → Store κ → Visit κ)
    (reader : Symbol) : Prop :=
  ∀ index target store, graph.node? index = some target → index ∉ path →
    graph.Reads target.symbol reader → graph.Coherent store →
    graph.Visited target.symbol [target.symbol] store (enter index store)

theorem follow_visited (lawful : graph.Lawful limit) (way : graph.Path path symbol)
    (found : graph.nodeOf? symbol = some node) (enters : graph.Enters path enter symbol)
    {store : Store κ} (coherent : graph.Coherent store) {read : Symbol} (member : read ∈ node.reads) :
    graph.Visited symbol [read] store (graph.follow path enter (store, none) read) := by
  simp only [follow]
  split
  · rename_i missing
    apply Visited.unchanged coherent
    intro other single defined
    rw [List.mem_singleton.mp single, isDefined, missing] at defined
    cases defined
  · rename_i index live
    split
    · rename_i cached
      apply Visited.unchanged coherent
      intro other single _
      rwa [List.mem_singleton.mp single]
    · obtain ⟨definition, target, targetLive⟩ := liveIndex?_eq_some.mp live
      obtain rfl := lawful.symbol_of_definition definition targetLive
      have reads : graph.Reads target.symbol symbol :=
        ⟨node, found, member, isDefined_iff.mpr ⟨target, lawful.nodeOf?_symbol targetLive⟩⟩
      split
      · rename_i onPath
        apply Visited.closed _ coherent
        obtain ⟨again, sameLive, back⟩ := way.below index (List.contains_iff_mem.mp onPath)
        rw [targetLive, Option.some.injEq] at sameLive
        subst sameLive
        exact ⟨target.symbol, ReflTransGen.single reads, TransGen.head' reads back⟩
      · rename_i offPath
        have inner := enters index target store targetLive
          (fun on => offPath (List.contains_iff_mem.mpr on)) reads coherent
        exact ⟨inner.coherent, inner.grown, inner.cached,
          fun cycle met => (inner.cyclic cycle met).of_read reads, inner.founded⟩

theorem foldl_follow_visited (lawful : graph.Lawful limit) (way : graph.Path path symbol)
    (found : graph.nodeOf? symbol = some node) (enters : graph.Enters path enter symbol)
    {store : Store κ} (coherent : graph.Coherent store) {reads : List Symbol}
    (among : ∀ read ∈ reads, read ∈ node.reads) :
    graph.Visited symbol reads store (reads.foldl (graph.follow path enter) (store, none)) := by
  induction reads generalizing store with
  | nil => exact Visited.unchanged coherent (by simp)
  | cons head tail ih =>
      rw [List.foldl_cons]
      have first := follow_visited lawful way found enters coherent (among head List.mem_cons_self)
      rcases same : graph.follow path enter (store, none) head with ⟨later, _ | cycle⟩
      · rw [same] at first
        have rest := ih first.coherent fun read member => among read (List.mem_cons_of_mem _ member)
        refine ⟨rest.coherent, first.grown.trans rest.grown, ?_, rest.cyclic,
          fun founded => rest.founded (first.founded founded)⟩
        intro finished read member defined
        rcases List.mem_cons.mp member with here | later
        · subst here
          exact rest.grown.isCached (first.cached rfl read (List.mem_singleton_self _) defined)
        · exact rest.cached finished read later defined
      · rw [same] at first
        rw [foldl_follow_cycle]
        exact ⟨first.coherent, first.grown, nofun, first.cyclic, first.founded⟩

theorem Path.extend (way : graph.Path path symbol) {index : Nat} {target : Node κ}
    (live : graph.node? index = some target) (fresh : index ∉ path)
    (reads : graph.Reads target.symbol symbol) :
    graph.Path (path ++ [index]) target.symbol where
  nodup := by
    apply List.nodup_append.mpr
    refine ⟨way.nodup, by simp, ?_⟩
    intro item member other single same
    rw [List.mem_singleton.mp single] at same
    exact fresh (same ▸ member)
  below := by
    intro other member
    rcases List.mem_append.mp member with old | new
    · obtain ⟨node, found, below⟩ := way.below other old
      exact ⟨node, found, ReflTransGen.head reads below⟩
    · rw [List.mem_singleton.mp new]
      exact ⟨target, live, ReflTransGen.refl⟩

theorem Path.length_le (way : graph.Path path symbol) : path.length ≤ graph.nodes.length := by
  have within : ∀ index ∈ path, index ∈ List.range graph.nodes.length := by
    intro index member
    obtain ⟨node, found, _⟩ := way.below index member
    exact List.mem_range.mpr (node?_lt found)
  simpa using (way.nodup.subperm within).length_le

theorem visit_visited (lawful : graph.Lawful limit) {fuel : Nat} {index : Nat}
    (live : graph.node? index = some node) (way : graph.Path path node.symbol)
    (enough : graph.nodes.length < fuel + path.length) {store : Store κ}
    (coherent : graph.Coherent store) :
    graph.Visited node.symbol [node.symbol] store (graph.visit fuel path index store) := by
  induction fuel generalizing path index node store with
  | zero =>
      have short := way.length_le
      omega
  | succ fuel ih =>
      have found := lawful.nodeOf?_symbol live
      have enters : graph.Enters path (fun next store => graph.visit fuel (path ++ [next]) next store)
          node.symbol := by
        intro next target store targetLive fresh reads coherent
        apply ih targetLive (way.extend targetLive fresh reads) _ coherent
        rw [List.length_append, List.length_singleton]
        omega
      have folded := foldl_follow_visited lawful way found enters coherent fun read member => member
      rw [visit, (node?_eq_some.mp live).1]
      simp only
      split
      · rename_i later cycle same
        rw [same] at folded
        exact ⟨folded.coherent, folded.grown, nofun, folded.cyclic, folded.founded⟩
      · rename_i later same
        rw [same] at folded
        obtain ⟨kept, grown⟩ := folded.coherent.insert lawful found (folded.cached rfl)
        refine ⟨kept, folded.grown.trans grown, ?_, nofun,
          fun founded => (folded.founded founded).insert found (folded.cached rfl) _⟩
        intro _ read member _
        rw [List.mem_singleton.mp member, Store.isCached_iff]
        exact ⟨_, by rw [Store.cached?_insert, if_pos rfl]⟩

theorem refresh_visited (lawful : graph.Lawful limit) {index : Nat}
    (found : graph.liveIndex? symbol = some index) (coherent : graph.Coherent graph.store) :
    graph.Visited symbol [symbol] graph.store (graph.refresh symbol index) := by
  obtain ⟨definition, node, live⟩ := liveIndex?_eq_some.mp found
  obtain rfl := lawful.symbol_of_definition definition live
  unfold refresh
  split
  · rename_i cached
    apply Visited.unchanged coherent
    intro read member _
    rwa [List.mem_singleton.mp member]
  · have way : graph.Path [index] node.symbol := by
      refine ⟨by simp, ?_⟩
      intro other member
      rw [List.mem_singleton.mp member]
      exact ⟨node, live, ReflTransGen.refl⟩
    refine visit_visited lawful live way ?_ coherent
    rw [List.length_singleton]
    omega

end Mechanism.Graph
