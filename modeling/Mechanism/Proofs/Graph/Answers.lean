import Mathlib.Data.Finset.Card
import Mathlib.Data.Finset.Filter
import Mechanism.Proofs.Graph.Reachability

/-!
What a query answers. The answer is the definition in which bound inputs have their current values
and live symbols have their own answers, however much of it was in the cache.
-/

open Relation (ReflTransGen TransGen)

namespace Mechanism.Graph

open Mechanism.Graph.Action
open Store (Extends)

variable {κ : Type} [Scalar κ] {limit : Nat} {graph : Graph κ}

/-- No symbol that the given one depends on depends on itself. -/
def AcyclicBelow (graph : Graph κ) (symbol : Symbol) : Prop :=
  ∀ other, ReflTransGen graph.Reads other symbol → ¬TransGen graph.Reads other other

theorem AcyclicBelow.of_reads {read symbol : Symbol} (acyclic : graph.AcyclicBelow symbol)
    (reads : graph.Reads read symbol) : graph.AcyclicBelow read :=
  fun other below => acyclic other (below.tail reads)

theorem Acyclic.below (acyclic : graph.Acyclic) (symbol : Symbol) : graph.AcyclicBelow symbol :=
  fun other _ loop => acyclic.transGen.asymmetric other other loop loop

open Classical in
noncomputable def dependenciesOf (graph : Graph κ) (symbol : Symbol) : Finset Symbol :=
  {other ∈ (graph.nodes.map Node.symbol).toFinset | TransGen graph.Reads other symbol}

open Classical in
theorem mem_dependenciesOf (lawful : graph.Lawful limit) {symbol other : Symbol} :
    other ∈ graph.dependenciesOf symbol ↔ TransGen graph.Reads other symbol := by
  rw [dependenciesOf, Finset.mem_filter, and_iff_right_iff_imp]
  intro depends
  obtain ⟨next, ⟨_, _, _, defined⟩, _⟩ := TransGen.head'_iff.mp depends
  obtain ⟨node, found⟩ := isDefined_iff.mp defined
  obtain ⟨index, live, rfl⟩ := lawful.nodeOf?_iff.mp found
  rw [List.mem_toFinset]
  exact List.mem_map_of_mem (List.mem_of_getElem? (node?_eq_some.mp live).1)

theorem AcyclicBelow.acc (lawful : graph.Lawful limit) {symbol : Symbol}
    (acyclic : graph.AcyclicBelow symbol) : Acc graph.Reads symbol := by
  generalize size : (graph.dependenciesOf symbol).card = count
  induction count using Nat.strong_induction_on generalizing symbol with
  | _ count ih =>
      constructor
      intro read reads
      refine ih _ ?_ (acyclic.of_reads reads) rfl
      rw [← size]
      apply Finset.card_lt_card
      rw [Finset.ssubset_iff_of_subset]
      · refine ⟨read, (mem_dependenciesOf lawful).mpr (TransGen.single reads), ?_⟩
        rw [mem_dependenciesOf lawful]
        exact acyclic read (ReflTransGen.single reads)
      · intro other member
        rw [mem_dependenciesOf lawful] at member ⊢
        exact member.tail reads

/-- Two graphs with the same inputs and the same values of live definitions. -/
structure SameDefinitions (first second : Graph κ) : Prop where
  values : ∀ symbol, (second.nodeOf? symbol).map Node.value = (first.nodeOf? symbol).map Node.value
  inputs : ∀ symbol, second.isInput symbol = first.isInput symbol

theorem SameDefinitions.refl (graph : Graph κ) : SameDefinitions graph graph :=
  ⟨fun _ => rfl, fun _ => rfl⟩

theorem SameDefinitions.withStore (graph : Graph κ) (store : Store κ) :
    SameDefinitions graph { graph with store := store } :=
  ⟨fun _ => rfl, fun _ => rfl⟩

theorem SameDefinitions.symm {first second : Graph κ} (same : SameDefinitions first second) :
    SameDefinitions second first :=
  ⟨fun symbol => (same.values symbol).symm, fun symbol => (same.inputs symbol).symm⟩

theorem SameDefinitions.isDefined_eq {first second : Graph κ}
    (same : SameDefinitions first second) (symbol : Symbol) :
    second.isDefined symbol = first.isDefined symbol := by
  have values := congrArg Option.isSome (same.values symbol)
  rwa [Option.isSome_map, Option.isSome_map, ← Graph.isDefined_eq, ← Graph.isDefined_eq] at values

theorem SameDefinitions.nodeOf? {first second : Graph κ} (same : SameDefinitions first second)
    {symbol : Symbol} {node : Node κ} (found : first.nodeOf? symbol = some node) :
    ∃ other, second.nodeOf? symbol = some other ∧ other.value = node.value := by
  have values := same.values symbol
  rw [found, Option.map_some] at values
  exact Option.map_eq_some_iff.mp values

theorem SameDefinitions.reads {first second : Graph κ} {more : Nat}
    (same : SameDefinitions first second) (lawful : first.Lawful limit)
    (otherLawful : second.Lawful more) {read reader : Symbol} (reads : first.Reads read reader) :
    second.Reads read reader := by
  obtain ⟨node, found, member, defined⟩ := reads
  obtain ⟨other, otherFound, value⟩ := same.nodeOf? found
  refine ⟨other, otherFound, ?_, by rw [same.isDefined_eq, defined]⟩
  rwa [(otherLawful.regular_of_nodeOf? otherFound).reads_eq, value,
    ← (lawful.regular_of_nodeOf? found).reads_eq]

theorem SameDefinitions.acyclicBelow {first second : Graph κ} {more : Nat}
    (same : SameDefinitions first second) (lawful : first.Lawful limit)
    (otherLawful : second.Lawful more) {symbol : Symbol} (acyclic : first.AcyclicBelow symbol) :
    second.AcyclicBelow symbol := by
  have back : ∀ read reader, second.Reads read reader → first.Reads read reader :=
    fun _ _ reads => same.symm.reads otherLawful lawful reads
  intro other below loop
  exact acyclic other (ReflTransGen.mono back _ _ below) (TransGen.mono back _ _ loop)

theorem Coherent.cached?_unique {other : Graph κ} {more : Nat} (lawful : graph.Lawful limit)
    (otherLawful : other.Lawful more) (same : SameDefinitions graph other)
    {left right : Store κ} (leftCoherent : graph.Coherent left)
    (rightCoherent : other.Coherent right)
    (bindings : ∀ symbol, right.binding? symbol = left.binding? symbol) {symbol : Symbol}
    (founded : Acc graph.Reads symbol) {value : Tensor κ} (known : left.cached? symbol = some value)
    (cached : right.isCached symbol = true) : right.cached? symbol = some value := by
  induction founded generalizing value with
  | intro symbol _ ih =>
      obtain ⟨again, found⟩ := Store.isCached_iff.mp cached
      obtain ⟨node, live, rfl, inner⟩ := leftCoherent.cached known
      obtain ⟨target, targetLive, rfl, targetInner⟩ := rightCoherent.cached found
      obtain ⟨twin, twinLive, equal⟩ := same.nodeOf? live
      rw [targetLive, Option.some.injEq] at twinLive
      subst twinLive
      rw [found, equal]
      congr 1
      apply Tensor.substitute_congr
      intro atom member
      have reads : atom.symbol ∈ node.reads := (lawful.regular_of_nodeOf? live).mem_reads member
      have targetReads : atom.symbol ∈ target.reads := by
        rw [(otherLawful.regular_of_nodeOf? targetLive).reads_eq, equal]
        exact Tensor.mem_symbols.mpr ⟨atom, member, rfl⟩
      have values : right.cached? atom.symbol = left.cached? atom.symbol := by
        cases defined : graph.isDefined atom.symbol with
        | true =>
            obtain ⟨value, old⟩ := Store.isCached_iff.mp (inner atom.symbol reads defined)
            have definedOther : other.isDefined atom.symbol = true := by
              rw [same.isDefined_eq, defined]
            rw [old]
            exact ih atom.symbol ⟨node, live, reads, defined⟩ old
              (targetInner atom.symbol targetReads definedOther)
        | false =>
            rw [leftCoherent.cached?_eq_none defined,
              rightCoherent.cached?_eq_none (by rw [same.isDefined_eq, defined])]
      rw [Store.lookup, Store.lookup, bindings, values]

def answer (session : Session κ) (symbol : Symbol) : Except (GraphError κ) (Tensor κ) :=
  ((valueOf symbol).perform session).1

variable {session : Session κ}

theorem answer_defined (valid : session.graph.Valid limit) {symbol : Symbol}
    (defined : session.graph.isDefined symbol = true)
    (acyclic : session.graph.AcyclicBelow symbol) :
    ∃ store value, session.graph.Coherent store ∧ Extends session.graph.store store ∧
      store.cached? symbol = some value ∧ answer session symbol = .ok value := by
  obtain ⟨node, live⟩ := isDefined_iff.mp defined
  obtain ⟨index, found, _⟩ := nodeOf?_eq_some.mp live
  have visited := refresh_visited valid.toLawful found valid.coherent
  have noCycle : (session.graph.refresh symbol index).2 = none := by
    cases met : (session.graph.refresh symbol index).2 with
    | none => rfl
    | some cycle =>
        obtain ⟨other, below, loop⟩ := visited.cyclic cycle met
        exact absurd loop (acyclic other below)
  have cached := visited.cached noCycle symbol (List.mem_singleton_self _) defined
  obtain ⟨value, known⟩ := Store.isCached_iff.mp cached
  refine ⟨_, value, visited.coherent, visited.grown, known, ?_⟩
  rw [answer, perform_valueOf, perform_valueWith_defined _ (valid.toLawful.noInput live) found,
    noCycle, known]

/-- The entry that stands for an atom at present: of the binding of an input, or of the answer for
a live symbol. -/
def current (session : Session κ) (atom : Atom) : Option (Expr κ) :=
  if session.graph.isInput atom.symbol then do
    let value ← session.graph.store.binding? atom.symbol
    (value.entryAt atom.flatIndex).toOption
  else if session.graph.isDefined atom.symbol then do
    let value ← (answer session atom.symbol).toOption
    (value.entryAt atom.flatIndex).toOption
  else none

theorem lookup_eq_current (valid : session.graph.Valid limit) {store : Store κ}
    (coherent : session.graph.Coherent store) (grown : Extends session.graph.store store)
    {atom : Atom}
    (known : session.graph.isDefined atom.symbol = true →
      ∃ value, store.cached? atom.symbol = some value ∧ answer session atom.symbol = .ok value) :
    store.lookup atom = current session atom := by
  have bindings : store.binding? atom.symbol = session.graph.store.binding? atom.symbol := by
    rw [Store.binding?, grown.bindings, Store.binding?]
  rw [Store.lookup, current]
  cases input : session.graph.isInput atom.symbol with
  | true =>
      rw [coherent.cached?_eq_none (valid.toLawful.apart input), bindings, if_pos rfl, Option.or_none]
  | false =>
      have unbound : store.binding? atom.symbol = none := by
        rw [Option.eq_none_iff_forall_ne_some]
        intro value bound
        have isInput := coherent.bound bound
        rw [input] at isInput
        cases isInput
      rw [unbound, Option.none_or, if_neg (by decide)]
      cases defined : session.graph.isDefined atom.symbol with
      | true =>
          obtain ⟨value, found, answered⟩ := known defined
          rw [found, answered]
          rfl
      | false =>
          rw [coherent.cached?_eq_none defined]
          rfl

theorem answer_of_cached (valid : session.graph.Valid limit) {store : Store κ}
    (coherent : session.graph.Coherent store) (grown : Extends session.graph.store store)
    {symbol : Symbol} (acyclic : session.graph.AcyclicBelow symbol) {value : Tensor κ}
    (known : store.cached? symbol = some value) : answer session symbol = .ok value := by
  have defined := coherent.isDefined (Store.isCached_iff.mpr ⟨value, known⟩)
  obtain ⟨later, again, laterCoherent, laterGrown, found, answered⟩ :=
    answer_defined valid defined acyclic
  have same := coherent.cached?_unique valid.toLawful valid.toLawful (SameDefinitions.refl _)
    laterCoherent (fun symbol => by
      rw [Store.binding?, laterGrown.bindings, Store.binding?, grown.bindings])
    (acyclic.acc valid.toLawful) known (Store.isCached_iff.mpr ⟨again, found⟩)
  rw [found, Option.some.injEq] at same
  rw [answered, same]

theorem answer_eq (valid : session.graph.Valid limit) {symbol : Symbol} {node : Node κ}
    (found : session.graph.nodeOf? symbol = some node)
    (acyclic : session.graph.AcyclicBelow symbol) :
    answer session symbol = .ok (node.value.substitute (current session)) := by
  obtain ⟨store, value, coherent, grown, known, answered⟩ :=
    answer_defined valid (isDefined_iff.mpr ⟨node, found⟩) acyclic
  obtain ⟨other, again, rfl, inner⟩ := coherent.cached known
  rw [found, Option.some.injEq] at again
  subst again
  rw [answered]
  congr 1
  apply Tensor.substitute_congr
  intro atom member
  apply lookup_eq_current valid coherent grown
  intro defined
  have reads : atom.symbol ∈ node.reads :=
    (valid.toLawful.regular_of_nodeOf? found).mem_reads member
  obtain ⟨inside, cached⟩ := Store.isCached_iff.mp (inner atom.symbol reads defined)
  exact ⟨inside, cached, answer_of_cached valid coherent grown
    (acyclic.of_reads ⟨node, found, reads, defined⟩) cached⟩

theorem answer_congr {other : Session κ} {more : Nat} (valid : session.graph.Valid limit)
    (otherValid : other.graph.Valid more) (same : SameDefinitions session.graph other.graph)
    (bindings : ∀ symbol,
      other.graph.store.binding? symbol = session.graph.store.binding? symbol) {symbol : Symbol}
    (defined : session.graph.isDefined symbol = true)
    (acyclic : session.graph.AcyclicBelow symbol) :
    answer other symbol = answer session symbol := by
  have otherAcyclic := same.acyclicBelow valid.toLawful otherValid.toLawful acyclic
  obtain ⟨left, value, leftCoherent, leftGrown, known, answered⟩ :=
    answer_defined valid defined acyclic
  obtain ⟨right, again, rightCoherent, rightGrown, found, otherAnswered⟩ :=
    answer_defined otherValid (by rw [same.isDefined_eq, defined]) otherAcyclic
  have equal := leftCoherent.cached?_unique valid.toLawful otherValid.toLawful same rightCoherent
    (fun symbol => by
      rw [Store.binding?, rightGrown.bindings, ← Store.binding?, bindings, Store.binding?,
        ← leftGrown.bindings, Store.binding?])
    (acyclic.acc valid.toLawful) known (Store.isCached_iff.mpr ⟨again, found⟩)
  rw [found, Option.some.injEq] at equal
  rw [answered, otherAnswered, equal]

theorem Queried.sameDefinitions {before after : Session κ} (queried : Queried before after) :
    SameDefinitions before.graph after.graph ∧
      ∀ symbol, after.graph.store.binding? symbol = before.graph.store.binding? symbol := by
  constructor
  · rw [queried.graph]
    exact SameDefinitions.withStore before.graph after.graph.store
  · intro symbol
    rw [Store.binding?, Store.binding?, queried.grown.bindings]

def Session.afterQueries (session : Session κ) (queries : List Symbol) : Session κ :=
  queries.foldl (fun session symbol => (Command.query symbol).apply session) session

theorem Fit.afterQueries {simplifier : Simplifier κ} (fit : Fit simplifier session)
    (queries : List Symbol) :
    Fit simplifier (session.afterQueries queries) ∧
      Queried session (session.afterQueries queries) := by
  induction queries generalizing session with
  | nil => exact ⟨fit, Queried.refl fit.valid.coherent⟩
  | cons head tail ih =>
      have first : Queried session ((Command.query head).apply session) := by
        rw [Command.apply, Command.action, perform_ignore]
        exact valueOf_queried fit.valid head
      obtain ⟨last, rest⟩ := ih (fit.queried first)
      exact ⟨last, first.trans rest⟩

/-- In every session that can be reached, a live symbol without a cycle below it is answered with
its definition under the current bindings and the answers for the live symbols that it reads. The
answer depends on definitions, inputs and bindings only, and not on earlier queries. -/
theorem answer_current {simplifier : Simplifier κ} (tame : simplifier.Tame)
    (reachable : Reachable simplifier session) {symbol : Symbol} {node : Node κ}
    (found : session.graph.nodeOf? symbol = some node)
    (acyclic : session.graph.AcyclicBelow symbol) :
    answer session symbol = .ok (node.value.substitute (current session)) ∧
      (∀ (other : Session κ) (another : Simplifier κ), another.Tame → Reachable another other →
        SameDefinitions session.graph other.graph →
        (∀ input, other.graph.store.binding? input = session.graph.store.binding? input) →
          answer other symbol = answer session symbol) ∧
      ∀ queries : List Symbol,
        answer (session.afterQueries queries) symbol = answer session symbol := by
  have fit := reachable.fit tame
  have defined := isDefined_iff.mpr ⟨node, found⟩
  refine ⟨answer_eq fit.valid found acyclic, ?_, ?_⟩
  · intro other another anotherTame otherReachable same bindings
    exact answer_congr fit.valid (otherReachable.fit anotherTame).valid same bindings defined acyclic
  · intro queries
    obtain ⟨later, queried⟩ := fit.afterQueries queries
    obtain ⟨same, bindings⟩ := queried.sameDefinitions
    exact answer_congr fit.valid later.valid same bindings defined acyclic

theorem acyclic_chained : Chained.registered.graph.Acyclic := by
  have lawful := (Chained.reachable.fit Simplifier.keep_tame).valid.toLawful
  have bound : Chained.registered.graph.Bound :=
    (unbound?_eq_none lawful).mp (Option.isNone_iff_eq_none.mp (by with_unfolding_all decide))
  have levels : Chained.registered.graph.findLevels = .ok [[0], [1]] := by with_unfolding_all decide
  exact (lawful.orderly_of_levels bound levels).acyclic

theorem answer_current_chained : ∃ node, Chained.registered.graph.nodeOf? Chained.y = some node ∧
    answer Chained.registered Chained.y =
      .ok (node.value.substitute (current Chained.registered)) ∧
    answer (Chained.registered.afterQueries [Chained.m, Chained.x]) Chained.y =
      answer Chained.registered Chained.y := by
  have defined : Chained.registered.graph.isDefined Chained.y = true := by decide
  obtain ⟨node, found⟩ := isDefined_iff.mp defined
  obtain ⟨answered, _, queried⟩ := answer_current Simplifier.keep_tame Chained.reachable found
    (acyclic_chained.below Chained.y)
  exact ⟨node, found, answered, queried _⟩

end Mechanism.Graph
