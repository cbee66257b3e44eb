import Mechanism.Proofs.Graph.Answers

/-!
Which graphs can be built: those that read only what has a value, and in which nothing depends on
itself. No pass can make a build fail, and a build that fails leaves the equations as they were.
-/

open Relation (TransGen)

namespace Mechanism.Graph

open Mechanism.Graph.Action

variable {κ : Type} [Scalar κ] {limit : Nat} {graph : Graph κ} {simplifier : Simplifier κ}
  {session : Session κ}

theorem acyclic_iff (lawful : graph.Lawful limit) :
    graph.Acyclic ↔ ∀ symbol, ¬TransGen graph.Reads symbol symbol := by
  constructor
  · intro acyclic symbol loop
    exact acyclic.transGen.asymmetric symbol symbol loop loop
  · intro loopless
    exact ⟨fun symbol => AcyclicBelow.acc lawful fun other _ => loopless other⟩

theorem Valid.acyclic_of_built (valid : graph.Valid limit) (built : graph.built = true) :
    graph.Acyclic := by
  obtain ⟨_, _, _, _, isLevel⟩ := valid.leveled built
  exact isLevel.acyclic valid.toLawful

/-- An equation reads a removed symbol, and only where that has no place. -/
def Strays (graph : Graph κ) : Prop :=
  ∃ symbol node, graph.nodeOf? symbol = some node ∧ ∃ read ∈ node.reads,
    graph.isDefined read = false ∧ graph.isInput read = false ∧ graph.Dangles node.value read

theorem Settled.bound_or_strays (settled : graph.Settled) : graph.Bound ∨ graph.Strays := by
  by_contra! neither
  obtain ⟨unbound, none⟩ := neither
  refine unbound fun symbol node found read member => ?_
  by_contra! missing
  rw [ne_eq, Bool.not_eq_true, ne_eq, Bool.not_eq_true] at missing
  rcases settled symbol node found read member with defined | input | dangles
  · exact Bool.false_ne_true (missing.1.symm.trans defined)
  · exact Bool.false_ne_true (missing.2.symm.trans input)
  · exact none ⟨symbol, node, found, read, member, missing.1, missing.2, dangles⟩

theorem Valid.orderly_or_strays (valid : graph.Valid limit) (built : graph.built = true) :
    graph.Orderly limit ∨ graph.Strays :=
  (valid.leveled built).settled.bound_or_strays.imp_left fun bound =>
    ⟨valid.toLawful, bound, valid.acyclic_of_built built⟩

theorem Lawful.orderly_of_checks (lawful : graph.Lawful limit)
    (bound : graph.unbound?.isNone = true)
    (leveled : graph.relink.findLevels.toOption.isSome = true) : graph.Orderly limit := by
  have relinked : graph.relink.Lawful limit := lawful.congr rfl rfl rfl rfl
  have allBound := (unbound?_eq_none lawful).mp (Option.isNone_iff_eq_none.mp bound)
  cases found : graph.relink.findLevels with
  | error cycle =>
      rw [found] at leveled
      cases leveled
  | ok levels => exact ⟨lawful, allBound, (relinked.orderly_of_levels allBound found).acyclic⟩

theorem Orderly.build_ok (orderly : session.graph.Orderly session.supply.next)
    (modest : session.graph.simplifier.Modest) :
    ∃ levels report,
      (session.graph.relink.optimized session.supply).graph.findLevels = .ok levels ∧
        build.perform session = (.ok report, session.rebuilt levels) := by
  have improved := optimized_improved orderly.relink modest
  rcases perform_build session with ⟨error, unbound, _⟩ | ⟨_, ⟨cycle, stuck, _⟩ | ⟨_, _, rest⟩⟩
  · rw [(unbound?_eq_none orderly.toLawful).mpr orderly.bound] at unbound
    cases unbound
  · obtain ⟨levels, found⟩ := exists_findLevels orderly.relink.toLawful orderly.relink.acyclic
    rw [stuck] at found
    cases found
  · rcases rest with ⟨cycle, stuck⟩ | ⟨levels, found, succeeds⟩
    · obtain ⟨levels, found⟩ := exists_findLevels improved.lawful improved.acyclic
      rw [stuck] at found
      cases found
    · exact ⟨levels, _, found, succeeds⟩

theorem build_ok_iff (lawful : session.graph.Lawful session.supply.next)
    (modest : session.graph.simplifier.Modest) :
    (∃ report later, build.perform session = (.ok report, later)) ↔
      session.graph.Orderly session.supply.next := by
  constructor
  · rintro ⟨report, later, succeeds⟩
    rcases build_outcome lawful modest with ⟨error, fails | fails⟩ | ⟨orderly, _⟩
    · rw [fails] at succeeds
      cases succeeds
    · rw [fails] at succeeds
      cases succeeds
    · exact orderly
  · intro orderly
    obtain ⟨levels, report, _, succeeds⟩ := orderly.build_ok modest
    exact ⟨report, _, succeeds⟩

theorem build_error {error : GraphError κ} {later : Session κ}
    (lawful : session.graph.Lawful session.supply.next) (modest : session.graph.simplifier.Modest)
    (fails : build.perform session = (.error error, later)) :
    ∃ consumers, later = { session with graph := { session.graph with consumers := consumers } } := by
  rcases build_outcome lawful modest with ⟨_, same | same⟩ | ⟨_, _, _, _, same⟩
  · rw [same] at fails
    cases fails
    exact ⟨session.graph.consumers, rfl⟩
  · rw [same] at fails
    cases fails
    exact ⟨session.graph.relink.consumers, rfl⟩
  · rw [same] at fails
    cases fails

/-- A build fails because of an unbound symbol or because of a cycle, before any pass is made. -/
theorem build_error_cases {error : GraphError κ} {later : Session κ}
    (lawful : session.graph.Lawful session.supply.next) (modest : session.graph.simplifier.Modest)
    (fails : build.perform session = (.error error, later)) :
    session.graph.unbound? = some error ∨
      ∃ cycle, error = session.graph.relink.cycleError cycle := by
  rcases perform_build session with
    ⟨reason, unbound, same⟩ | ⟨bound, ⟨cycle, _, same⟩ | ⟨levels, found, _⟩⟩
  · rw [same] at fails
    cases fails
    exact Or.inl unbound
  · rw [same] at fails
    cases fails
    exact Or.inr ⟨cycle, rfl⟩
  · have relinked : session.graph.relink.Lawful session.supply.next := lawful.congr rfl rfl rfl rfl
    have orderly := relinked.orderly_of_levels ((unbound?_eq_none lawful).mp bound) found
    obtain ⟨report, after, succeeds⟩ := (build_ok_iff lawful modest).mpr
      ⟨lawful, orderly.bound, orderly.acyclic⟩
    rw [succeeds] at fails
    cases fails

theorem settled_of_build {report : BuildReport} {later : Session κ}
    (lawful : session.graph.Lawful session.supply.next)
    (modest : session.graph.simplifier.Modest)
    (succeeds : build.perform session = (.ok report, later)) : later.graph.Settled := by
  have orderly := (build_ok_iff lawful modest).mp ⟨report, later, succeeds⟩
  obtain ⟨levels, again, _, same⟩ := orderly.build_ok modest
  rw [same] at succeeds
  cases succeeds
  exact (optimized_improved orderly.relink modest).settled

/-- A build succeeds exactly if every symbol that is read has a value and no symbol depends on
itself. The passes never get in the way: the levels after them are always found, and nothing reads
an undefined symbol then, but for entries that a removed symbol does not have. A build that fails
changes nothing but the table of readers, and the graph is not built, unless it was before and
reads such an entry. -/
theorem build_decided (modest : simplifier.Modest) (attainable : Attainable simplifier session) :
    ((∃ report later, build.perform session = (.ok report, later)) ↔
      session.graph.Bound ∧ ∀ symbol, ¬TransGen session.graph.Reads symbol symbol) ∧
    (session.graph.unbound? = none → ∀ levels, session.graph.relink.findLevels = .ok levels →
      ∃ again, (session.graph.relink.optimized session.supply).graph.findLevels = .ok again) ∧
    (∀ report later, build.perform session = (.ok report, later) → later.graph.Settled) ∧
    ∀ error later, build.perform session = (.error error, later) →
      (later.graph.built = false ∨ session.graph.Strays) ∧
        ∃ consumers,
          later = { session with graph := { session.graph with consumers := consumers } } := by
  obtain ⟨valid, rfl⟩ := attainable.fit modest
  have lawful := valid.toLawful
  have orderly_iff : session.graph.Orderly session.supply.next ↔
      session.graph.Bound ∧ ∀ symbol, ¬TransGen session.graph.Reads symbol symbol := by
    rw [← acyclic_iff lawful]
    exact ⟨fun orderly => ⟨orderly.bound, orderly.acyclic⟩, fun both => ⟨lawful, both.1, both.2⟩⟩
  refine ⟨(build_ok_iff lawful modest).trans orderly_iff, ?_,
    fun _ _ succeeds => settled_of_build lawful modest succeeds, ?_⟩
  · intro bound levels found
    have relinked : session.graph.relink.Lawful session.supply.next := lawful.congr rfl rfl rfl rfl
    have orderly := relinked.orderly_of_levels ((unbound?_eq_none lawful).mp bound) found
    have improved := optimized_improved orderly modest
    exact exists_findLevels improved.lawful improved.acyclic
  · intro error later fails
    obtain ⟨consumers, rfl⟩ := build_error lawful modest fails
    refine ⟨?_, consumers, rfl⟩
    cases built : session.graph.built with
    | false => exact .inl rfl
    | true =>
        -- a built graph that does not stray is orderly and can be built again
        refine .inr ((valid.orderly_or_strays built).resolve_left fun orderly => ?_)
        obtain ⟨_, _, _, succeeds⟩ := orderly.build_ok modest
        rw [succeeds] at fails
        cases fails

theorem build_decided_outlying : ∃ report later,
    build.perform Outlying.registered = (.ok report, later) ∧ later.graph.Settled := by
  have modest : Simplifier.Modest (Simplifier.keep : Simplifier RealNumber) :=
    Simplifier.keep_tame.toModest
  obtain ⟨decided, _, settled, _⟩ := build_decided modest Outlying.attainable
  have lawful := (Outlying.attainable.fit modest).valid.toLawful
  have orderly : Outlying.registered.graph.Orderly Outlying.registered.supply.next :=
    lawful.orderly_of_checks (by with_unfolding_all decide) (by with_unfolding_all decide)
  obtain ⟨report, later, succeeds⟩ :=
    decided.mpr ⟨orderly.bound, (acyclic_iff lawful).mp orderly.acyclic⟩
  exact ⟨report, later, succeeds, settled report later succeeds⟩

/-- A build removes `m` although an entry that `m` does not have is read. To build the graph again
is an error then, and the graph is still built after it. -/
theorem outlying_fails_again : Attainable Simplifier.keep Outlying.registered ∧
    Outlying.registered.graph.unbound? = none ∧
      (build.perform Outlying.registered).1.toOption.isSome = true ∧
        (build.perform Outlying.registered).2 = Outlying.built ∧
          ¬Outlying.built.graph.Bound ∧
            (build.perform Outlying.built).1.toOption.isNone = true ∧
              (build.perform Outlying.built).2.graph.built = true := by
  have modest : Simplifier.Modest (Simplifier.keep : Simplifier RealNumber) :=
    Simplifier.keep_tame.toModest
  refine ⟨Outlying.attainable, Option.isNone_iff_eq_none.mp (by with_unfolding_all decide),
    by with_unfolding_all decide, ?_, fun bound => ?_, by with_unfolding_all decide,
    by with_unfolding_all decide⟩
  · exact (perform_ignore build).symm
  · have lawful := (Outlying.attainable_built.fit modest).valid.toLawful
    have found : Outlying.built.graph.unbound?.isSome = true := by with_unfolding_all decide
    rw [(unbound?_eq_none lawful).mpr bound] at found
    cases found

end Mechanism.Graph
