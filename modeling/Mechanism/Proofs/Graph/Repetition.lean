import Mechanism.Proofs.Graph.Aliases
import Mechanism.Proofs.Graph.Buildability
import Mechanism.Proofs.Graph.Revisions

/-!
What is asked twice is answered twice in the same way. Two graphs that differ by cached values and by
the readers that are kept for every symbol give the same answers and the same errors; and these are
all that a query or a failed build changes.
-/

open Relation (ReflTransGen TransGen)

namespace Mechanism

section

variable {ε σ α β : Type} {pre mid post : σ → σ → Prop}

/-- Done in two states that have something to do with each other, the action has the same outcome,
and leaves such states. -/
def Agrees (pre post : σ → σ → Prop) (action : ExceptT ε (StateM σ) α) : Prop :=
  ∀ one other, pre one other → (action.run.run other).1 = (action.run.run one).1 ∧
    post (action.run.run one).2 (action.run.run other).2

namespace Agrees

theorem mono {less more : σ → σ → Prop} {action : ExceptT ε (StateM σ) α}
    (agrees : Agrees pre post action) (before : ∀ one other, less one other → pre one other)
    (after : ∀ one other, post one other → more one other) : Agrees less more action :=
  fun one other related => (agrees one other (before one other related)).imp_right (after _ _)

theorem pure (value : α) : Agrees pre pre (Pure.pure value : ExceptT ε (StateM σ) α) :=
  fun _ _ related => ⟨rfl, related⟩

theorem throw (error : ε) : Agrees pre pre (MonadExcept.throw error : ExceptT ε (StateM σ) α) :=
  fun _ _ related => ⟨rfl, related⟩

theorem run_bind (action : ExceptT ε (StateM σ) β) (next : β → ExceptT ε (StateM σ) α) (state : σ) :
    (action >>= next).run.run state =
      match action.run.run state with
      | (.ok value, later) => (next value).run.run later
      | (.error error, later) => (.error error, later) := by
  change ((action.run >>= ExceptT.bindCont next).run state) = _
  rw [StateT.run_bind]
  change (match action.run.run state with | (value, later) => _) = _
  rcases action.run.run state with ⟨_ | _, later⟩ <;> rfl

theorem bind {action : ExceptT ε (StateM σ) β} {next : β → ExceptT ε (StateM σ) α}
    (agrees : Agrees pre mid action) (rest : ∀ value, Agrees mid post (next value))
    (weaker : ∀ one other, mid one other → post one other) : Agrees pre post (action >>= next) := by
  intro one other related
  obtain ⟨same, later⟩ := agrees one other related
  rw [run_bind, run_bind]
  generalize action.run.run one = left at same later
  generalize action.run.run other = right at same later
  obtain ⟨result, first⟩ := left
  obtain ⟨otherResult, second⟩ := right
  obtain rfl : result = otherResult := same.symm
  cases result with
  | error error => exact ⟨rfl, weaker _ _ later⟩
  | ok value => exact rest value first second later

theorem andThen {action : ExceptT ε (StateM σ) β} {next : β → ExceptT ε (StateM σ) α}
    (agrees : Agrees pre pre action) (rest : ∀ value, Agrees pre pre (next value)) :
    Agrees pre pre (action >>= next) :=
  agrees.bind rest fun _ _ related => related

theorem forM {items : List β} {action : β → ExceptT ε (StateM σ) Unit}
    (each : ∀ item, Agrees pre pre (action item)) : Agrees pre pre (items.forM action) := by
  induction items with
  | nil => exact pure ()
  | cons head tail ih => exact (each head).andThen fun _ => ih

theorem mapM {items : List β} {action : β → ExceptT ε (StateM σ) α}
    (each : ∀ item, Agrees pre pre (action item)) : Agrees pre pre (items.mapM action) := by
  induction items with
  | nil => exact pure []
  | cons head tail ih =>
      rw [List.mapM_cons]
      exact (each head).andThen fun _ => ih.andThen fun _ => pure _

end Agrees

end

namespace Graph

open Mechanism.Graph.Action

variable {κ α : Type} [Scalar κ] {limit more : Nat}

/-- The second graph differs from the first one at most by cached values and by readers. -/
structure Twin (first second : Graph κ) : Prop where
  graph : second = { first with consumers := second.consumers, store := second.store }
  store : Store.Keeps first.store second.store

variable {graph first second third : Graph κ} {symbol : Symbol}

namespace Twin

theorem refl (graph : Graph κ) : Twin graph graph := ⟨rfl, .refl _⟩

theorem symm (twin : Twin first second) : Twin second first :=
  ⟨by rw [twin.graph], twin.store.bindings.symm, twin.store.revision.symm⟩

theorem trans (left : Twin first second) (right : Twin second third) : Twin first third :=
  ⟨by rw [right.graph, left.graph], left.store.trans right.store⟩

theorem withStore (graph : Graph κ) {store : Store κ} (keeps : Store.Keeps graph.store store) :
    Twin graph { graph with store := store } := ⟨rfl, keeps⟩

theorem relink (graph : Graph κ) : Twin graph graph.relink := ⟨rfl, .refl _⟩

variable (twin : Twin first second)

include twin

theorem inputs : second.inputs = first.inputs := by rw [twin.graph]

theorem aliases : second.aliases = first.aliases := by rw [twin.graph]

theorem nodes : second.nodes = first.nodes := by rw [twin.graph]

theorem built : second.built = first.built := by rw [twin.graph]

theorem isInput_eq : second.isInput symbol = first.isInput symbol := by
  rw [isInput, twin.inputs, isInput]

theorem liveIndex?_eq : second.liveIndex? symbol = first.liveIndex? symbol := by
  rw [twin.graph]
  rfl

theorem isDefined_eq : second.isDefined symbol = first.isDefined symbol := by
  rw [isDefined, twin.liveIndex?_eq, isDefined]

theorem binding?_eq : second.store.binding? symbol = first.store.binding? symbol := by
  rw [Store.binding?, twin.store.bindings, Store.binding?]

theorem cycleError_eq (cycle : List Nat) : second.cycleError cycle = first.cycleError cycle := by
  rw [twin.graph]
  rfl

theorem unbound?_eq : second.unbound? = first.unbound? := by
  rw [twin.graph]
  rfl

theorem findLevels_eq : second.findLevels = first.findLevels := by
  rw [twin.graph]
  rfl

theorem sameDefinitions : SameDefinitions first second := by
  rw [twin.graph]
  exact ⟨fun _ => rfl, fun _ => rfl⟩

theorem visit_eq (fuel : Nat) (path : List Nat) (index : Nat) (store : Store κ) :
    second.visit fuel path index store = first.visit fuel path index store := by
  rw [twin.graph]
  induction fuel generalizing path index store with
  | zero => rfl
  | succ fuel ih =>
      simp only [visit, ih]
      rfl

end Twin

/-- A store that a graph can have at some time: it holds what the definitions come to, and nothing
that rests on a cycle. -/
structure Current (graph : Graph κ) (store : Store κ) : Prop where
  coherent : graph.Coherent store
  founded : graph.Founded store

theorem Visited.present {reads : List Symbol} {before : Store κ} {outcome : Visit κ}
    (visited : graph.Visited symbol reads before outcome) (present : graph.Current before) :
    graph.Current outcome.1 :=
  ⟨visited.coherent, visited.founded present.founded⟩

theorem Visited.noCycle {reads : List Symbol} {before : Store κ} {outcome : Visit κ}
    (visited : graph.Visited symbol reads before outcome) (founded : Acc graph.Reads symbol) :
    outcome.2 = none := by
  cases met : outcome.2 with
  | none => rfl
  | some cycle =>
      obtain ⟨other, below, loop⟩ := visited.cyclic cycle met
      exact absurd loop (acyclicBelow_of_acc founded other below)

section

variable {path : List Nat} {enter : Nat → Store κ → Visit κ} {node : Node κ} {left right : Store κ}

/-- Entering an equation that a visited one reads meets the same cycle whatever is cached. -/
def EntersAlike (graph : Graph κ) (path : List Nat) (enter : Nat → Store κ → Visit κ)
    (reader : Symbol) : Prop :=
  ∀ index target left right, graph.node? index = some target → index ∉ path →
    graph.Reads target.symbol reader → graph.Current left → graph.Current right →
      (enter index left).2 = (enter index right).2

theorem follow_alike (lawful : graph.Lawful limit) (way : graph.Path path symbol)
    (found : graph.nodeOf? symbol = some node) (enters : graph.Enters path enter symbol)
    (alike : graph.EntersAlike path enter symbol) (leftCurrent : graph.Current left)
    (rightCurrent : graph.Current right) {read : Symbol} (member : read ∈ node.reads) :
    (graph.follow path enter (left, none) read).2 =
      (graph.follow path enter (right, none) read).2 := by
  simp only [follow]
  cases live : graph.liveIndex? read with
  | none => rfl
  | some index =>
      simp only
      obtain ⟨definition, target, targetLive⟩ := liveIndex?_eq_some.mp live
      obtain rfl := lawful.symbol_of_definition definition targetLive
      have reads : graph.Reads target.symbol symbol :=
        ⟨node, found, member, isDefined_iff.mpr ⟨target, lawful.nodeOf?_symbol targetLive⟩⟩
      by_cases founded : Acc graph.Reads target.symbol
      · -- what rests on no cycle is not on the path, and nothing comes of entering it
        have offPath : index ∉ path := by
          intro onPath
          obtain ⟨again, sameLive, back⟩ := way.below index onPath
          rw [targetLive, Option.some.injEq] at sameLive
          subst sameLive
          exact acyclicBelow_of_acc founded _ .refl (TransGen.head' reads back)
        have nothing {store : Store κ} (present : graph.Current store) :
            (if store.isCached target.symbol = true then ((store, none) : Visit κ)
              else if path.contains index = true then
                (store, some (path.dropWhile fun other => other != index))
              else enter index store).2 = none := by
          split
          · rfl
          · rw [if_neg (fun on => offPath (List.contains_iff_mem.mp on))]
            exact (enters index target store targetLive offPath reads present.coherent).noCycle founded
        rw [nothing leftCurrent, nothing rightCurrent]
      · have uncached {store : Store κ} (present : graph.Current store) :
            store.isCached target.symbol = false := by
          rw [← Bool.not_eq_true]
          exact fun cached => founded (present.founded _ cached)
        rw [uncached leftCurrent, uncached rightCurrent]
        by_cases onPath : path.contains index = true
        · simp only [Bool.false_eq_true, if_false, onPath, if_true]
        · simp only [Bool.false_eq_true, if_false, onPath]
          exact alike index target left right targetLive
            (fun on => onPath (List.contains_iff_mem.mpr on)) reads leftCurrent rightCurrent

theorem foldl_follow_alike (lawful : graph.Lawful limit) (way : graph.Path path symbol)
    (found : graph.nodeOf? symbol = some node) (enters : graph.Enters path enter symbol)
    (alike : graph.EntersAlike path enter symbol) (leftCurrent : graph.Current left)
    (rightCurrent : graph.Current right) {reads : List Symbol}
    (among : ∀ read ∈ reads, read ∈ node.reads) :
    (reads.foldl (graph.follow path enter) (left, none)).2 =
      (reads.foldl (graph.follow path enter) (right, none)).2 := by
  induction reads generalizing left right with
  | nil => rfl
  | cons head tail ih =>
      rw [List.forall_mem_cons] at among
      rw [List.foldl_cons, List.foldl_cons]
      have same := follow_alike lawful way found enters alike leftCurrent rightCurrent among.1
      have first := (follow_visited lawful way found enters leftCurrent.coherent among.1).present
        leftCurrent
      have second := (follow_visited lawful way found enters rightCurrent.coherent among.1).present
        rightCurrent
      generalize graph.follow path enter (left, none) head = one at same first
      generalize graph.follow path enter (right, none) head = other at same second
      obtain ⟨left, met⟩ := one
      obtain ⟨right, _⟩ := other
      obtain rfl : met = _ := same
      cases met with
      | none => exact ih first second among.2
      | some cycle => rw [foldl_follow_cycle, foldl_follow_cycle]

theorem visit_alike (lawful : graph.Lawful limit) {fuel : Nat} {index : Nat}
    (live : graph.node? index = some node) (way : graph.Path path node.symbol)
    (enough : graph.nodes.length < fuel + path.length) (leftCurrent : graph.Current left)
    (rightCurrent : graph.Current right) :
    (graph.visit fuel path index left).2 = (graph.visit fuel path index right).2 := by
  induction fuel generalizing path index node left right with
  | zero =>
      have short := way.length_le
      omega
  | succ fuel ih =>
      have longer (next : Nat) : graph.nodes.length < fuel + (path ++ [next]).length := by
        rw [List.length_append, List.length_singleton]
        omega
      have enters : graph.Enters path (fun next store => graph.visit fuel (path ++ [next]) next store)
          node.symbol := fun next target store targetLive fresh reads coherent =>
        visit_visited lawful targetLive (way.extend targetLive fresh reads) (longer next) coherent
      have alike : graph.EntersAlike path
          (fun next store => graph.visit fuel (path ++ [next]) next store) node.symbol :=
        fun next target left right targetLive fresh reads =>
          ih targetLive (way.extend targetLive fresh reads) (longer next)
      have folded := foldl_follow_alike lawful way (lawful.nodeOf?_symbol live) enters alike leftCurrent
        rightCurrent fun read member => member
      rw [visit, visit, (node?_eq_some.mp live).1]
      simp only
      generalize node.reads.foldl _ (left, none) = one at folded
      generalize node.reads.foldl _ (right, none) = other at folded
      obtain ⟨_, met⟩ := one
      obtain ⟨_, _⟩ := other
      obtain rfl : met = _ := folded
      cases met <;> rfl

end

structure Peers (first second : Session κ) : Prop where
  supply : second.supply = first.supply
  twin : Twin first.graph second.graph

/-- The graph of the session is as a run of commands leaves it. -/
structure Sane (session : Session κ) : Prop where
  valid : session.graph.Valid session.supply.next
  founded : session.graph.Founded session.graph.store

section

variable {one other before after : Session κ} {simplifier : Simplifier κ}

theorem Peers.refl (session : Session κ) : Peers session session := ⟨rfl, .refl _⟩

theorem Peers.symm (peers : Peers one other) : Peers other one := ⟨peers.supply.symm, peers.twin.symm⟩

theorem Peers.trans {last : Session κ} (left : Peers one other) (right : Peers other last) :
    Peers one last :=
  ⟨right.supply.trans left.supply, left.twin.trans right.twin⟩

theorem Reachable.sane (reachable : Reachable simplifier one) (tame : simplifier.Tame) : Sane one :=
  ⟨(reachable.fit tame).valid, reachable.attainable.founded tame.toModest⟩

theorem Sane.present (sane : Sane one) : one.graph.Current one.graph.store :=
  ⟨sane.valid.coherent, sane.founded⟩

theorem peers_of_evaluates (evaluates : ReflTransGen Evaluates before after) : Peers before after := by
  induction evaluates with
  | refl => exact .refl _
  | tail _ last ih =>
      cases last with
      | refresh found => exact ih.trans ⟨rfl, .withStore _ (keeps_refresh _ _ _)⟩

theorem sane_of_evaluates (evaluates : ReflTransGen Evaluates before after) (sane : Sane before) :
    Sane after := by
  induction evaluates with
  | refl => exact sane
  | tail _ last ih =>
      have valid := (last.queried ih.valid).valid ih.valid
      cases last with
      | refresh found =>
          exact ⟨valid, (refresh_visited ih.valid.toLawful found ih.valid.coherent).founded ih.founded⟩

theorem current_of_twin (twin : Twin first second) (firstLawful : first.Lawful limit)
    (secondLawful : second.Lawful more) {store : Store κ} (present : second.Current store) :
    first.Current store := by
  have nodes (symbol : Symbol) : first.nodeOf? symbol = second.nodeOf? symbol := by
    rw [twin.graph]
    rfl
  refine ⟨⟨fun bound => ?_, fun cached => ?_⟩, fun symbol cached => ?_⟩
  · rw [← twin.isInput_eq]
    exact present.coherent.bound bound
  · obtain ⟨node, found, same, known⟩ := present.coherent.cached cached
    exact ⟨node, (nodes _).trans found, same, fun read member defined =>
      known read member (twin.isDefined_eq.trans defined)⟩
  · exact Subrelation.accessible
      (fun {_ _} reads => twin.sameDefinitions.reads firstLawful secondLawful reads)
      (present.founded symbol cached)

structure SanePeers (one other : Session κ) : Prop extends Peers one other where
  sane : Sane one
  otherSane : Sane other

theorem SanePeers.of_evaluates {later otherLater : Session κ} (peers : SanePeers one other)
    (evaluates : ReflTransGen Evaluates one later)
    (otherEvaluates : ReflTransGen Evaluates other otherLater) : SanePeers later otherLater where
  toPeers := ((peers_of_evaluates evaluates).symm.trans peers.toPeers).trans
    (peers_of_evaluates otherEvaluates)
  sane := sane_of_evaluates evaluates peers.sane
  otherSane := sane_of_evaluates otherEvaluates peers.otherSane

theorem SanePeers.refresh (peers : SanePeers one other) {index : Nat}
    (found : one.graph.liveIndex? symbol = some index) :
    (other.graph.refresh symbol index).2 = (one.graph.refresh symbol index).2 ∧
      ((one.graph.refresh symbol index).2 = none →
        (other.graph.refresh symbol index).1.cached? symbol =
          (one.graph.refresh symbol index).1.cached? symbol) := by
  obtain ⟨⟨_, twin⟩, sane, otherSane⟩ := peers
  have lawful := sane.valid.toLawful
  have otherLawful := otherSane.valid.toLawful
  obtain ⟨definition, node, live⟩ := liveIndex?_eq_some.mp found
  obtain rfl := lawful.symbol_of_definition definition live
  have otherFound := twin.liveIndex?_eq.trans found
  have visited := refresh_visited lawful found sane.valid.coherent
  have otherVisited := refresh_visited otherLawful otherFound otherSane.valid.coherent
  have defined : one.graph.isDefined node.symbol = true := by rw [isDefined, found]; rfl
  have cycles : (other.graph.refresh node.symbol index).2 =
      (one.graph.refresh node.symbol index).2 := by
    by_cases founded : Acc one.graph.Reads node.symbol
    · have otherFounded : Acc other.graph.Reads node.symbol := Subrelation.accessible
        (fun {_ _} reads => twin.symm.sameDefinitions.reads otherLawful lawful reads) founded
      rw [visited.noCycle founded, otherVisited.noCycle otherFounded]
    · have uncached : one.graph.store.isCached node.symbol = false := by
        rw [← Bool.not_eq_true]
        exact fun cached => founded (sane.founded _ cached)
      have present := current_of_twin twin lawful otherLawful otherSane.present
      have otherUncached : other.graph.store.isCached node.symbol = false := by
        rw [← Bool.not_eq_true]
        exact fun cached => founded (present.founded _ cached)
      have way : one.graph.Path [index] node.symbol := by
        refine ⟨List.nodup_singleton _, fun other member => ?_⟩
        rw [List.mem_singleton.mp member]
        exact ⟨node, live, .refl⟩
      rw [Graph.refresh, Graph.refresh, uncached, otherUncached, twin.nodes]
      simp only [Bool.false_eq_true, if_false, twin.visit_eq]
      exact visit_alike lawful live way (by simp) present sane.present
  refine ⟨cycles, fun finished => ?_⟩
  have cached := visited.cached finished _ (List.mem_singleton_self _) defined
  have otherCached := otherVisited.cached (cycles.trans finished) _ (List.mem_singleton_self _)
    (twin.isDefined_eq.trans defined)
  obtain ⟨value, known⟩ := Store.isCached_iff.mp cached
  rw [known]
  refine visited.coherent.cached?_unique lawful otherLawful twin.sameDefinitions otherVisited.coherent
    (fun symbol => ?_) (visited.founded sane.founded _ cached) known otherCached
  rw [Store.binding?, otherVisited.grown.bindings, ← Store.binding?, twin.binding?_eq, Store.binding?,
    ← visited.grown.bindings, Store.binding?]

theorem agrees_valueWith (fuel : Nat) (symbol : Symbol) :
    Agrees SanePeers SanePeers (valueWith fuel symbol : Action κ (Tensor κ)) := by
  intro one other peers
  refine ⟨?_, peers.of_evaluates (valueWith_evaluates fuel one symbol)
    (valueWith_evaluates fuel other symbol)⟩
  change ((valueWith fuel symbol).perform other).1 = ((valueWith fuel symbol).perform one).1
  induction fuel generalizing one other symbol with
  | zero => rfl
  | succ fuel ih =>
      have twin := peers.twin
      cases input : one.graph.isInput symbol with
      | true =>
          rw [perform_valueWith_input fuel input,
            perform_valueWith_input fuel (twin.isInput_eq.trans input), twin.binding?_eq]
      | false =>
      have otherInput := twin.isInput_eq.trans input
      cases found : one.graph.liveIndex? symbol with
      | some index =>
          obtain ⟨cycles, values⟩ := peers.refresh found
          rw [perform_valueWith_defined fuel input found,
            perform_valueWith_defined fuel otherInput (twin.liveIndex?_eq.trans found), cycles]
          cases met : (one.graph.refresh symbol index).2 with
          | none =>
              rw [values met]
              cases (one.graph.refresh symbol index).1.cached? symbol <;> rfl
          | some cycle => exact congrArg Except.error (twin.cycleError_eq cycle)
      | none =>
      have otherFound := twin.liveIndex?_eq.trans found
      cases known : one.graph.aliases.find? symbol with
      | none =>
          rw [perform_valueWith_unknown fuel input found known,
            perform_valueWith_unknown fuel otherInput otherFound (by rw [twin.aliases, known])]
      | some target =>
          have each (part : Symbol) :
              Agrees SanePeers SanePeers (valueWith fuel part : Action κ (Tensor κ)) :=
            fun one other peers => ⟨ih part one other peers,
              peers.of_evaluates (valueWith_evaluates fuel one part)
                (valueWith_evaluates fuel other part)⟩
          have parts : Agrees SanePeers SanePeers (partsWith fuel target.symbols : Action κ _) :=
            .mapM fun part => (each part).andThen fun _ => .pure _
          have same : ((partsWith fuel target.symbols).perform other).1 =
            ((partsWith fuel target.symbols).perform one).1 := (parts one other peers).1
          rw [perform_valueWith_alias fuel input found known,
            perform_valueWith_alias fuel otherInput otherFound (by rw [twin.aliases, known])]
          generalize (partsWith fuel target.symbols).perform one = left at same
          generalize (partsWith fuel target.symbols).perform other = right at same
          obtain ⟨result, _⟩ := left
          obtain ⟨otherResult, _⟩ := right
          obtain rfl : result = otherResult := same.symm
          cases result <;> rfl

theorem agrees_valueOf (symbol : Symbol) :
    Agrees SanePeers SanePeers (valueOf symbol : Action κ (Tensor κ)) := by
  intro one other peers
  have same := agrees_valueWith (one.graph.aliases.size + 1) symbol one other peers
  change ((valueOf symbol).perform other).1 = ((valueOf symbol).perform one).1 ∧
    SanePeers ((valueOf symbol).perform one).2 ((valueOf symbol).perform other).2
  rw [perform_valueOf, perform_valueOf, peers.twin.aliases]
  exact same

theorem agrees_numbersOf (symbol : Symbol) :
    Agrees SanePeers SanePeers (numbersOf symbol : Action κ (Option (List κ))) :=
  (agrees_valueOf symbol).andThen fun _ => .pure _

theorem Peers.build_error (peers : Peers one other) (sane : Sane one)
    (tame : one.graph.simplifier.Tame) {error : GraphError κ}
    (fails : (build.perform one).1 = .error error) :
    (build.perform other).1 = .error error ∧ Peers other (build.perform other).2 := by
  have twin := peers.twin
  have lawful := sane.valid.toLawful
  have relinked : Twin one.graph.relink other.graph.relink :=
    (Twin.relink _).symm.trans (twin.trans (.relink _))
  rcases perform_build one with ⟨_, unbound, same⟩ | ⟨bound, rest⟩
  · rw [same] at fails
    obtain rfl := Except.error.inj fails
    rcases perform_build other with ⟨again, otherUnbound, otherSame⟩ | ⟨otherBound, _⟩
    · rw [twin.unbound?_eq, unbound] at otherUnbound
      obtain rfl := Option.some.inj otherUnbound
      rw [otherSame]
      exact ⟨rfl, .refl _⟩
    · rw [twin.unbound?_eq, unbound] at otherBound
      cases otherBound
  · rcases rest with ⟨cycle, stuck, same⟩ | ⟨levels, found, _⟩
    · rw [same] at fails
      obtain rfl := Except.error.inj fails
      rcases perform_build other with
        ⟨_, otherUnbound, _⟩ | ⟨_, ⟨again, otherStuck, otherSame⟩ | ⟨_, found, _⟩⟩
      · rw [twin.unbound?_eq, bound] at otherUnbound
        cases otherUnbound
      · rw [relinked.findLevels_eq, stuck] at otherStuck
        obtain rfl := Except.error.inj otherStuck
        rw [otherSame]
        exact ⟨congrArg Except.error (relinked.cycleError_eq cycle), rfl, .relink _⟩
      · rw [relinked.findLevels_eq, stuck] at found
        cases found
    · have linked : one.graph.relink.Lawful one.supply.next := lawful.congr rfl rfl rfl rfl
      have orderly := linked.orderly_of_levels ((unbound?_eq_none lawful).mp bound) found
      obtain ⟨report, later, succeeds⟩ :=
        (build_ok_iff lawful tame.toModest).mpr ⟨lawful, orderly.bound, orderly.acyclic⟩
      rw [succeeds] at fails
      cases fails

inductive SameResult {ε : Type} (relation : α → α → Prop) : Except ε α → Except ε α → Prop where
  | ok {value another : α} (related : relation value another) :
      SameResult relation (.ok value) (.ok another)
  | error (error : ε) : SameResult relation (.error error) (.error error)

theorem Twin.form (twin : Twin first second) : ∃ consumers store,
    second = { first with consumers := consumers, store := store } ∧
      Store.Keeps first.store store :=
  ⟨second.consumers, second.store, twin.graph, twin.store⟩

theorem addInput_alike (symbol : Symbol) (categories : CategorySet) (twin : Twin first second) :
    SameResult Twin (addInput symbol categories first) (addInput symbol categories second) := by
  obtain ⟨consumers, store, rfl, keeps⟩ := twin.form
  generalize second_eq : ({ first with consumers := consumers, store := store } : Graph κ) = second
  have equation : second.equation? symbol = first.equation? symbol := second_eq ▸ rfl
  have known : second.inputs.find? symbol = first.inputs.find? symbol := second_eq ▸ rfl
  unfold addInput
  simp only [equation, known]
  split
  · exact .error _
  · split
    · exact .error _
    · split
      · exact .ok (second_eq ▸ twin)
      · exact .error _
    · subst second_eq
      exact .ok ⟨rfl, keeps⟩

theorem Store.Keeps.bind {left right : Store κ} (keeps : Keeps left right) (symbol : Symbol)
    (value : Tensor κ) : Keeps (left.bind symbol value) (right.bind symbol value) :=
  ⟨by rw [Store.bind, keeps.bindings, Store.bind], congrArg (· + 1) keeps.revision⟩

theorem Store.Keeps.evict {left right : Store κ} (keeps : Keeps left right)
    (symbols others : List Symbol) :
    Keeps (symbols.foldl Store.evict left) (others.foldl Store.evict right) :=
  (Keeps.trans ⟨(keeps_evict symbols left).bindings.symm, (keeps_evict symbols left).revision.symm⟩
    keeps).trans (keeps_evict others right)

theorem bindInput_alike (symbol : Symbol) (value : Tensor κ) (twin : Twin first second) :
    SameResult Twin (bindInput symbol value first) (bindInput symbol value second) := by
  obtain ⟨consumers, store, rfl, keeps⟩ := twin.form
  have input : ({ first with consumers := consumers, store := store } : Graph κ).isInput symbol =
      first.isInput symbol := rfl
  unfold bindInput
  rw [input]
  split
  · exact .error _
  · split
    · exact .error _
    · exact .ok ⟨rfl, (keeps.bind symbol value).evict _ _⟩

theorem addEquation_alike (name : String) (symbol : Symbol) (value : Tensor κ)
    (categories : CategorySet) (twin : Twin first second) :
    SameResult Twin (addEquation name symbol value categories first)
      (addEquation name symbol value categories second) := by
  obtain ⟨consumers, store, rfl, keeps⟩ := twin.form
  generalize second_eq : ({ first with consumers := consumers, store := store } : Graph κ) = second
  have resolved : second.resolveAliases value = first.resolveAliases value := second_eq ▸ rfl
  have input : second.isInput symbol = first.isInput symbol := second_eq ▸ rfl
  have live : (second.liveIndex? symbol >>= second.node?) =
    first.liveIndex? symbol >>= first.node? := second_eq ▸ rfl
  unfold addEquation
  simp only [resolved, input, live]
  split
  · exact .error _
  · split
    · exact .error _
    · split
      · exact .error _
      · split
        · split
          · exact .ok (second_eq ▸ twin)
          · exact .error _
        · subst second_eq
          exact .ok ⟨rfl, keeps.evict _ _⟩

theorem agrees_update {change : Graph κ → Except (GraphError κ) (Graph κ)}
    (alike : ∀ first second, Twin first second → SameResult Twin (change first) (change second)) :
    Agrees Peers Peers (Action.update change) := by
  intro one other peers
  have same := alike _ _ peers.twin
  change ((Action.update change).perform other).1 = ((Action.update change).perform one).1 ∧
    Peers ((Action.update change).perform one).2 ((Action.update change).perform other).2
  rw [perform_update, perform_update]
  generalize change one.graph = left at same
  generalize change other.graph = right at same
  cases same with
  | ok twin => exact ⟨rfl, peers.supply, twin⟩
  | error error => exact ⟨rfl, peers⟩

theorem agrees_freshSymbol (name : String) (shape : Shape) :
    Agrees Peers Peers (freshSymbol name shape : Action κ Symbol) := by
  intro one other peers
  have same : other.supply = one.supply := peers.supply
  exact ⟨congrArg (fun supply : SymbolSupply => Except.ok (supply.fresh name shape).1) same,
    congrArg (fun supply => (supply.fresh name shape).2) same, peers.twin⟩

theorem agrees_declareInput (symbol : Symbol) (categories : CategorySet)
    (initial : Option (Tensor κ)) : Agrees Peers Peers (declareInput symbol categories initial) := by
  refine (agrees_update fun _ _ => addInput_alike symbol categories).andThen fun _ => ?_
  cases initial with
  | none => exact .pure _
  | some value => exact agrees_update fun _ _ => bindInput_alike symbol value

theorem agrees_register (name : String) (symbol : Symbol) (value : Tensor κ)
    (categories : CategorySet) :
    Agrees Peers Peers (register name symbol value categories : Action κ Symbol) :=
  (agrees_update fun _ _ => addEquation_alike name symbol value categories).andThen fun _ => .pure _

end

end Graph

end Mechanism
