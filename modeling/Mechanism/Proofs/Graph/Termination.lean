import Mechanism.Proofs.Graph.Buildability
import Mechanism.Proofs.Graph.Founded
import Mechanism.Proofs.Graph.Resolution
import Mechanism.Proofs.Graph.Traversal

/-!
Every query ends. The chains of aliases end, however many builds have made them longer: a build
removes a symbol in favour of one that stays, and whatever comes between two builds only makes
chains shorter. The evaluation of a live symbol ends as well, and it reports a cycle exactly if the
symbol depends on one.
-/

open Relation (ReflTransGen TransGen)

namespace Mechanism.Graph

open Mechanism.Graph.Action

variable {κ : Type} [Scalar κ] {limit : Nat} {graph before after : Graph κ}
  {simplifier : Simplifier κ} {session later : Session κ} {symbol : Symbol}

def Grounded (graph : Graph κ) : Prop :=
  WellFounded fun other symbol => graph.onward symbol = some other

theorem Grounded.shrink (grounded : before.Grounded) (retired : before.Retired)
    (aliases : ∀ symbol target, after.aliases.find? symbol = some target →
      before.aliases.find? symbol = some target)
    (inputs : ∀ symbol, before.isInput symbol = true → after.isInput symbol = true) :
    after.Grounded := by
  refine Subrelation.wf (fun {other symbol} next => ?_) grounded
  unfold onward at next
  split at next
  · cases next
  · rename_i unknown
    obtain ⟨target, found, head⟩ := Option.bind_eq_some_iff.mp next
    have old := aliases symbol target found
    have noInput : before.isInput symbol = false := by
      rw [← Bool.not_eq_true]
      intro input
      exact unknown (by rw [inputs symbol input, Bool.true_or])
    rw [onward_alias noInput (retired symbol target old) old, head]

theorem Grounded.eliminated (grounded : before.Grounded)
    (eliminated : Eliminated limit before after) : after.Grounded := by
  constructor
  intro symbol
  induction symbol using grounded.induction with
  | h symbol ih =>
      constructor
      intro other next
      obtain ⟨noInput, undefined, found, single⟩ :=
        onward_eq_some eliminated.lawful next
      cases defined : before.isDefined symbol with
      | true =>
          rcases eliminated.kept symbol defined with still | ⟨last, ended, known⟩
          · rw [undefined] at still
            cases still
          · have same : other = last := by
              rw [ended, Option.some.injEq] at found
              rw [← found] at single
              rcases Tensor.symbols_ofSymbol (κ := κ) last with none | one
              · rw [none] at single
                cases single
              · rw [one, List.singleton_inj] at single
                exact single.symm
            constructor
            intro further beyond
            rw [same, onward_known known.symm] at beyond
            cases beyond
      | false =>
          refine ih other ?_
          have input : before.isInput symbol = false := by rwa [isInput, ← eliminated.inputs]
          rw [onward_alias input defined (eliminated.old symbol defined ▸ found), single]
          rfl

theorem Grounded.optimized {supply : SymbolSupply} (grounded : graph.Grounded)
    (retired : graph.Retired) (orderly : graph.Orderly supply.next)
    (modest : graph.simplifier.Modest) : (graph.optimized supply).graph.Grounded := by
  rcases optimized_eq graph supply with ⟨same, _⟩ | ⟨same, _⟩
  · rwa [same]
  · rw [same]
    have folded := folded_rewritten orderly modest
    have shared := folded.trans (shareWanted_rewritten folded.orderly)
    have middle := grounded.shrink retired (fun _ _ found => shared.aliases ▸ found)
      (fun _ input => by rwa [isInput, shared.inputs])
    exact middle.eliminated (eliminateAliases_eliminated shared.orderly).relink

theorem Grounded.change (change : Change session later) (retired : session.graph.Retired)
    (grounded : session.graph.Grounded) : later.graph.Grounded := by
  cases change with
  | issue | relink => exact grounded
  | evaluate evaluates =>
      cases evaluates with
      | refresh => exact grounded
  | bind bound =>
      obtain ⟨_, rfl⟩ := bindInput_ok bound
      exact grounded
  | input _ added =>
      rcases addInput_ok added with rfl | ⟨_, rfl⟩
      · exact grounded
      · exact grounded.shrink retired (fun _ _ found => found)
          fun symbol input => isInput_insert.mpr (Or.inr input)
  | @define name symbol value categories graph _ _ added =>
      rcases addEquation_ok added with ⟨_, rfl⟩ | ⟨_, _, _, _, rfl⟩
      · exact grounded
      · refine grounded.shrink retired (fun other target known => ?_) fun _ input => input
        have old := Table.find?_erase session.graph.aliases symbol other
        rw [show (session.graph.aliases.erase symbol).find? other = some target from known] at old
        split at old
        · cases old
        · exact old.symm

theorem Grounded.changes (changes : Changes session later) (fit : Fit simplifier session)
    (retired : session.graph.Retired) (grounded : session.graph.Grounded) :
    later.graph.Retired ∧ later.graph.Grounded := by
  induction changes with
  | refl => exact ⟨retired, grounded⟩
  | tail earlier last ih =>
      exact ⟨ih.1.change last (Changes.fit earlier fit), ih.2.change last ih.1⟩

theorem Attainable.grounded (modest : simplifier.Modest)
    (attainable : Attainable simplifier session) : session.graph.Grounded := by
  induction attainable with
  | start _ made =>
      obtain rfl := new_ok made
      refine ⟨fun symbol => ⟨_, fun other next => ?_⟩⟩
      cases next
  | @step session command earlier issued ih =>
      have retired := earlier.retired modest
      have fit := earlier.fit modest
      have outcome := fit.outcome modest command issued
      generalize command.apply session = later at outcome
      cases outcome with
      | changed changes =>
          exact (Grounded.changes changes fit retired ih).2
      | built orderly _ =>
          have relinked : session.graph.relink.Grounded := ih
          exact relinked.optimized retired orderly.relink (fit.simplifier_eq ▸ modest)
      | reduced reduced =>
          obtain ⟨_, indices, _, _, _, rfl⟩ := reduce_eq_ok reduced
          have dropped := foldl_dropNode_dropped indices session.graph
          exact ih.shrink retired (fun _ _ found => dropped.aliases ▸ found)
            fun _ input => (congrArg (Table.contains · _) dropped.inputs).trans input

abbrev Reply (κ : Type) [Scalar κ] := Except (GraphError κ) (Tensor κ)

mutual

/-- Asking for the symbol in the first session ends with the reply and leaves the second session. -/
inductive Asked : Session κ → Symbol → Reply κ → Session κ → Prop where
  | input {session : Session κ} {symbol : Symbol} (isInput : session.graph.isInput symbol = true) :
      Asked session symbol (.ok ((session.graph.store.binding? symbol).getD (.ofSymbol symbol)))
        session
  | evaluated {session : Session κ} {symbol : Symbol} {index : Nat} {store : Store κ}
      {value : Tensor κ} (noInput : session.graph.isInput symbol = false)
      (live : session.graph.liveIndex? symbol = some index)
      (walks : session.graph.Walks session.graph.store (session.graph.stackOf symbol index)
        (store, none))
      (cached : store.cached? symbol = some value) :
      Asked session symbol (.ok value)
        { session with graph := { session.graph with store := store } }
  | cyclic {session : Session κ} {symbol : Symbol} {index : Nat} {store : Store κ}
      {cycle : List Nat} (noInput : session.graph.isInput symbol = false)
      (live : session.graph.liveIndex? symbol = some index)
      (walks : session.graph.Walks session.graph.store (session.graph.stackOf symbol index)
        (store, some cycle)) :
      Asked session symbol (.error (session.graph.cycleError cycle))
        { session with graph := { session.graph with store := store } }
  | aliased {session later : Session κ} {symbol : Symbol} {target : Tensor κ}
      {values : List (Symbol × Tensor κ)} (noInput : session.graph.isInput symbol = false)
      (undefined : session.graph.liveIndex? symbol = none)
      (found : session.graph.aliases.find? symbol = some target)
      (parts : AskedAll session target.symbols (.ok values) later) :
      Asked session symbol (.ok (target.substitute (entryOf values))) later
  | failed {session later : Session κ} {symbol : Symbol} {target : Tensor κ}
      {error : GraphError κ} (noInput : session.graph.isInput symbol = false)
      (undefined : session.graph.liveIndex? symbol = none)
      (found : session.graph.aliases.find? symbol = some target)
      (parts : AskedAll session target.symbols (.error error) later) :
      Asked session symbol (.error error) later
  | unknown {session : Session κ} {symbol : Symbol}
      (noInput : session.graph.isInput symbol = false)
      (undefined : session.graph.liveIndex? symbol = none)
      (missing : session.graph.aliases.find? symbol = none) :
      Asked session symbol (.error (.unknownSymbol symbol.name)) session

/-- Asking for the symbols in turn, up to the first that fails, ends like this. -/
inductive AskedAll : Session κ → List Symbol → Except (GraphError κ) (List (Symbol × Tensor κ)) →
    Session κ → Prop where
  | nil {session : Session κ} : AskedAll session [] (.ok []) session
  | cons {session middle later : Session κ} {part : Symbol} {parts : List Symbol}
      {value : Tensor κ} {values : List (Symbol × Tensor κ)}
      (first : Asked session part (.ok value) middle)
      (rest : AskedAll middle parts (.ok values) later) :
      AskedAll session (part :: parts) (.ok ((part, value) :: values)) later
  | later {session middle later : Session κ} {part : Symbol} {parts : List Symbol}
      {value : Tensor κ} {error : GraphError κ} (first : Asked session part (.ok value) middle)
      (rest : AskedAll middle parts (.error error) later) :
      AskedAll session (part :: parts) (.error error) later
  | fails {session later : Session κ} {part : Symbol} {parts : List Symbol} {error : GraphError κ}
      (first : Asked session part (.error error) later) :
      AskedAll session (part :: parts) (.error error) later

end

theorem asked_defined (valid : session.graph.Valid limit) {index fuel : Nat}
    (live : session.graph.liveIndex? symbol = some index) :
    Asked session symbol ((valueWith (fuel + 1) symbol).perform session).1
      ((valueWith (fuel + 1) symbol).perform session).2 := by
  obtain ⟨_, node, nodeLive⟩ := liveIndex?_eq_some.mp live
  have defined : session.graph.isDefined symbol = true := by
    rw [isDefined, live]
    rfl
  obtain ⟨node, found⟩ := isDefined_iff.mp defined
  have noInput := valid.toLawful.noInput found
  have walks := refresh_walks live
  have visited := refresh_visited valid.toLawful live valid.coherent
  rw [perform_valueWith_defined fuel noInput live]
  generalize session.graph.refresh symbol index = outcome at walks visited ⊢
  rcases outcome with ⟨store, _ | cycle⟩
  · obtain ⟨value, cached⟩ := Store.isCached_iff.mp
      (visited.cached rfl symbol (List.mem_singleton_self _) defined)
    simp only [cached]
    exact .evaluated noInput live walks cached
  · exact .cyclic noInput live walks

theorem asked_of_path (valid : session.graph.Valid limit) {count fuel : Nat} {last : Symbol}
    (path : Search.Path session.graph.onward count symbol last) (enough : count < fuel) :
    Asked session symbol ((valueWith fuel symbol).perform session).1
      ((valueWith fuel symbol).perform session).2 := by
  induction path generalizing fuel with
  | @stop symbol final =>
      obtain ⟨fuel, rfl⟩ := Nat.exists_eq_succ_of_ne_zero (Nat.ne_zero_of_lt enough)
      cases input : session.graph.isInput symbol with
      | true =>
          rw [perform_valueWith_input fuel input]
          exact .input input
      | false =>
          cases live : session.graph.liveIndex? symbol with
          | some index => exact asked_defined valid live
          | none =>
              have undefined : session.graph.isDefined symbol = false := by
                rw [isDefined, live]
                rfl
              cases found : session.graph.aliases.find? symbol with
              | none =>
                  rw [perform_valueWith_unknown fuel input live found]
                  exact .unknown input live found
              | some target =>
                  rw [onward_alias input undefined found, List.head?_eq_none_iff] at final
                  rw [perform_valueWith_blank fuel input live found final]
                  exact .aliased input live found (final ▸ .nil)
  | @step count symbol other last next _ ih =>
      obtain ⟨fuel, rfl⟩ := Nat.exists_eq_succ_of_ne_zero (Nat.ne_zero_of_lt enough)
      obtain ⟨noInput, notDefined, found, single⟩ := onward_eq_some valid.toLawful next
      have undefined : session.graph.liveIndex? symbol = none := by
        simpa [isDefined] using notDefined
      have inner := ih (Nat.lt_of_succ_lt_succ enough)
      rw [perform_valueWith_renamed fuel noInput undefined found single]
      generalize (valueWith fuel other).perform session = reply at inner ⊢
      rcases reply with ⟨error | value, later⟩
      · exact .failed noInput undefined found (single ▸ .fails inner)
      · exact .aliased noInput undefined found (single ▸ .cons inner .nil)

theorem answer_live (valid : session.graph.Valid limit)
    (founded : session.graph.Founded session.graph.store)
    (defined : session.graph.isDefined symbol = true) :
    (session.graph.ReachesCycle symbol ∧ ∃ symbols,
        answer session symbol = .error (.cyclicDependency (symbols.map Symbol.name)) ∧
          Circuit (fun reader read => session.graph.Reads read reader) symbols ∧
            ∀ other ∈ symbols, ReflTransGen session.graph.Reads other symbol) ∨
      ¬session.graph.ReachesCycle symbol ∧ ∃ value, answer session symbol = .ok value := by
  have lawful := valid.toLawful
  obtain ⟨index, live⟩ := Option.isSome_iff_exists.mp defined
  obtain ⟨definition, node, nodeLive⟩ := liveIndex?_eq_some.mp live
  obtain rfl := lawful.symbol_of_definition definition nodeLive
  have noInput := lawful.noInput (lawful.nodeOf?_symbol nodeLive)
  have walks := refresh_walks live
  have visited := refresh_visited lawful live valid.coherent
  rw [answer, perform_valueOf, perform_valueWith_defined _ noInput live]
  generalize session.graph.refresh node.symbol index = outcome at walks visited ⊢
  rcases outcome with ⟨store, _ | cycle⟩
  · have cached := visited.cached rfl node.symbol (List.mem_singleton_self _) defined
    obtain ⟨value, known⟩ := Store.isCached_iff.mp cached
    refine Or.inr ⟨?_, value, by simp only [known]⟩
    rintro ⟨other, below, loop⟩
    exact acyclicBelow_of_acc (visited.founded founded node.symbol cached) other below loop
  · obtain ⟨circuit, below⟩ := walks.circuit lawful (stackOf_tracked nodeLive _) rfl
    obtain ⟨symbols, named, circuitOf, among⟩ := circuit.symbols lawful
    refine Or.inl ⟨visited.cyclic cycle rfl, symbols, congrArg Except.error named, circuitOf, ?_⟩
    intro other member
    obtain ⟨reached, onCycle, isOther⟩ := among other member
    exact below_of_relies lawful (below reached onCycle) (symbolAt?_of_node? nodeLive) isOther

theorem loop_of_answer (valid : session.graph.Valid limit)
    (founded : session.graph.Founded session.graph.store) {fuel : Nat} {names : List String}
    (fails : ((valueWith fuel symbol).perform session).1 = .error (.cyclicDependency names)) :
    ∃ other, TransGen session.graph.Reads other other := by
  induction fuel generalizing symbol with
  | zero => cases fails
  | succ fuel ih =>
      cases input : session.graph.isInput symbol with
      | true =>
          rw [perform_valueWith_input fuel input] at fails
          cases fails
      | false =>
          cases live : session.graph.liveIndex? symbol with
          | some index =>
              have defined : session.graph.isDefined symbol = true := by
                rw [isDefined, live]
                rfl
              rw [perform_valueWith_known fuel (Or.inr defined)] at fails
              rcases answer_live valid founded defined with ⟨⟨other, _, loop⟩, _⟩ | ⟨_, _, same⟩
              · exact ⟨other, loop⟩
              · rw [answer, fails] at same
                cases same
          | none =>
              cases found : session.graph.aliases.find? symbol with
              | none =>
                  rw [perform_valueWith_unknown fuel input live found] at fails
                  cases fails
              | some target =>
                  obtain ⟨other, stands⟩ := valid.aliases found
                  rw [stands.target_eq] at found
                  rcases Tensor.symbols_ofSymbol (κ := κ) other with none | single
                  · rw [perform_valueWith_blank fuel input live found none] at fails
                    cases fails
                  · rw [perform_valueWith_renamed fuel input live found single] at fails
                    rcases inner : (valueWith fuel other).perform session with
                      ⟨error | value, later⟩ <;> rw [inner] at fails <;> cases fails
                    exact ih (congrArg Prod.fst inner)

theorem build_cyclic_iff (lawful : session.graph.Lawful session.supply.next)
    (modest : session.graph.simplifier.Modest) (bound : session.graph.Bound) :
    (∃ names later, build.perform session = (.error (.cyclicDependency names), later)) ↔
      ∃ symbol, TransGen session.graph.Reads symbol symbol := by
  have ok_iff := build_ok_iff lawful modest
  constructor
  · rintro ⟨names, later, fails⟩
    by_contra loopless
    obtain ⟨report, after, succeeds⟩ := ok_iff.mpr
      ⟨lawful, bound, (acyclic_iff lawful).mpr fun symbol loop => loopless ⟨symbol, loop⟩⟩
    rw [succeeds] at fails
    cases fails
  · rintro ⟨symbol, loop⟩
    rcases performed : build.perform session with ⟨error | report, later⟩
    · rcases build_error_cases lawful modest performed with unbound | ⟨cycle, rfl⟩
      · rw [(unbound?_eq_none lawful).mpr bound] at unbound
        cases unbound
      · exact ⟨_, later, rfl⟩
    · have orderly := ok_iff.mp ⟨report, later, performed⟩
      exact absurd loop ((acyclic_iff lawful).mp orderly.acyclic symbol)

/-- Every query ends, in every session that can be reached and whatever has been cached there. A
live symbol is answered with a value unless it depends on a cycle; if it does, the error names the
symbols of such a cycle, each of which reads the next one, and the last one the first. So if
everything that is read has a value, then some query reports a cycle exactly if a build does. -/
theorem queries_end (tame : simplifier.Tame) (reachable : Reachable simplifier session) :
    (∀ symbol, Asked session symbol (answer session symbol)
      ((valueOf symbol).perform session).2) ∧
    (∀ symbol, session.graph.isDefined symbol = true →
      (session.graph.ReachesCycle symbol ∧ ∃ symbols,
        answer session symbol = .error (.cyclicDependency (symbols.map Symbol.name)) ∧
          Circuit (fun reader read => session.graph.Reads read reader) symbols ∧
            ∀ other ∈ symbols, ReflTransGen session.graph.Reads other symbol) ∨
      ¬session.graph.ReachesCycle symbol ∧ ∃ value, answer session symbol = .ok value) ∧
    (session.graph.Bound →
      ((∃ symbol names, answer session symbol = .error (.cyclicDependency names)) ↔
        ∃ names later, build.perform session = (.error (.cyclicDependency names), later))) := by
  have fit := reachable.fit tame
  have founded := reachable.attainable.founded tame.toModest
  refine ⟨fun symbol => ?_, fun _ => answer_live fit.valid founded, fun bound => ?_⟩
  · obtain ⟨count, last, path⟩ := Search.exists_path (reachable.attainable.grounded tame.toModest) symbol
    rw [answer, perform_valueOf]
    exact asked_of_path fit.valid path (Nat.lt_succ_of_le (length_le_aliases path))
  · rw [build_cyclic_iff fit.valid.toLawful (fit.simplifier_eq ▸ tame.toModest) bound]
    constructor
    · rintro ⟨symbol, names, fails⟩
      rw [answer, perform_valueOf] at fails
      exact loop_of_answer fit.valid founded fails
    · rintro ⟨symbol, loop⟩
      obtain ⟨_, _, last⟩ := TransGen.tail'_iff.mp loop
      have cyclic : session.graph.ReachesCycle symbol := ⟨symbol, ReflTransGen.refl, loop⟩
      rcases answer_live fit.valid founded last.isDefined_reader with
        ⟨_, symbols, fails, _⟩ | ⟨acyclic, _⟩
      · exact ⟨symbol, _, fails⟩
      · exact absurd cyclic acyclic

theorem queries_end_looped :
    (∃ symbols, answer Looped.registered Looped.c =
        .error (.cyclicDependency (symbols.map Symbol.name)) ∧
      Circuit (fun reader read => Looped.registered.graph.Reads read reader) symbols) ∧
    (∃ names later,
      build.perform Looped.registered = (.error (.cyclicDependency names), later)) ∧
    Chained.built.graph.aliases.contains Chained.m = true ∧
      Asked Chained.built Chained.m (answer Chained.built Chained.m)
        ((valueOf Chained.m).perform Chained.built).2 := by
  obtain ⟨_, live, builds⟩ := queries_end Simplifier.keep_tame Looped.reachable
  obtain ⟨asked, _, _⟩ := queries_end Simplifier.keep_tame Chained.reachable_built
  have bound : Looped.registered.graph.Bound :=
    (unbound?_eq_none (Looped.reachable.fit Simplifier.keep_tame).valid.toLawful).mp
      (Option.isNone_iff_eq_none.mp (by with_unfolding_all decide))
  have noValue : (answer Looped.registered Looped.c).toOption.isSome = false := by
    with_unfolding_all decide
  rcases live Looped.c (by decide) with ⟨_, symbols, fails, circuit, _⟩ | ⟨_, value, same⟩
  · exact ⟨⟨symbols, fails, circuit⟩, (builds bound).mp ⟨_, _, fails⟩,
      by with_unfolding_all decide, asked _⟩
  · rw [same] at noValue
    cases noValue

end Mechanism.Graph
