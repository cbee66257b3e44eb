import Mechanism.Proofs.Model.Regularity

/-!
Reduced equations of motion among the equations that a model generates. The three of them are
defined like any other intermediate value, and a build removes those that come out as nothing but
another symbol.
-/

open Relation (TransGen)

namespace Mechanism

/-- One of the equations defines the symbol. -/
def EquationList.Defines {κ : Type} [Scalar κ] (list : EquationList κ) (symbol : Symbol) : Prop :=
  ∃ equation ∈ list.equations, equation.symbol = symbol

namespace Model

open Mechanism.Model.Action

section

variable {κ α : Type} [Scalar κ] {simplifier : Simplifier κ} {session later reduced ready : Session κ}
  {symbol : Symbol}

/-- The symbols of the reduced equations of motion. -/
def Dynamics.symbols (dynamics : Dynamics) : List Symbol :=
  [dynamics.mass, dynamics.bias, dynamics.forces]

/-- The symbol has an equation that serves other equations only. -/
def Serves (session : Session κ) (symbol : Symbol) : Prop :=
  ∃ node, session.model.graph.nodeOf? symbol = some node ∧
    node.equation.categories = .only .variable

theorem Serves.isDefined (serves : Serves session symbol) :
    session.model.graph.isDefined symbol = true := by
  obtain ⟨node, found, _⟩ := serves
  exact Graph.isDefined_iff.mpr ⟨node, found⟩

theorem Serves.conserved (serves : Serves session symbol) (conserves : Conserves session later)
    (tame : simplifier.Tame) (fit : Fit simplifier session) : Serves later symbol := by
  obtain ⟨node, found, categories⟩ := serves
  exact ⟨node, Graph.Leads.nodeOf? conserves tame fit.graph found, categories⟩

theorem define_eq_ok {name : String} {value : Tensor κ} (regular : value.Regular session.supply.next)
    (tame : simplifier.Tame) (fit : Fit simplifier session)
    (defined : (define name value (.only .variable)).perform session = (.ok symbol, later)) :
    Serves later symbol ∧ Conserves session later ∧ Fit simplifier later := by
  have steps := steps_define name (.only .variable) regular
  have conserves := conserves_define name (.only .variable) regular
  rw [defined] at steps conserves
  have laterFit := steps.fit tame fit
  obtain ⟨work, performed, rfl⟩ := onGraph_eq_ok.mp defined
  obtain ⟨node, registered⟩ :=
    Graph.registered_define (fit.graph.fit tame).valid.toLawful performed
  exact ⟨⟨node, registered.found, registered.categories_eq⟩, conserves, laterFit⟩

theorem reduceDynamics_eq_ok {coordinates : List Coordinate} {motion : Motion κ}
    {dynamics : Dynamics} (regular : motion.Regular session.supply.next) (tame : simplifier.Tame)
    (fit : Fit simplifier session)
    (reduces : (reduceDynamics coordinates motion).perform session = (.ok dynamics, reduced)) :
    Fit simplifier reduced ∧ ∀ symbol ∈ dynamics.symbols, Serves reduced symbol := by
  rw [reduceDynamics, perform_bind, perform_getModel] at reduces
  simp only at reduces
  split at reduces
  · cases reduces
  rename_i independent made accepted
  have reads := fit.reducedMotion regular accepted
  obtain ⟨mass, first, massDefined, rest⟩ := Action.bind_eq_ok.mp reduces
  obtain ⟨bias, second, biasDefined, rest⟩ := Action.bind_eq_ok.mp rest
  obtain ⟨forces, third, forcesDefined, rest⟩ := Action.bind_eq_ok.mp rest
  obtain ⟨massServes, massKept, firstFit⟩ := define_eq_ok reads.mass tame fit massDefined
  have firstLe : session.supply.next ≤ first.supply.next := massKept.supply_le tame fit.graph
  obtain ⟨biasServes, biasKept, secondFit⟩ :=
    define_eq_ok (reads.bias.mono firstLe) tame firstFit biasDefined
  have secondLe : first.supply.next ≤ second.supply.next := biasKept.supply_le tame firstFit.graph
  obtain ⟨forcesServes, forcesKept, thirdFit⟩ :=
    define_eq_ok (reads.forces.mono (firstLe.trans secondLe)) tame secondFit forcesDefined
  rw [perform_bind, perform_modifyModel] at rest
  cases rest
  refine ⟨thirdFit.advance tame .start ⟨rfl, rfl, rfl, rfl, rfl⟩, ?_⟩
  simp only [Dynamics.symbols, List.forall_mem_cons, List.not_mem_nil, false_implies, implies_true,
    and_true]
  exact ⟨(massServes.conserved biasKept tame firstFit).conserved forcesKept tame secondFit,
    biasServes.conserved forcesKept tame secondFit, forcesServes⟩

def Removes (session : Session κ) (symbol : Symbol) : Prop :=
  session.model.graph.built = false ∧ Graph.Discards (graphSession session) symbol

theorem perform_extract (output : CategorySet) :
    (extract output).perform session =
      match session.model.graph.extract output .none with
      | .ok list => (.ok list, session)
      | .error error => (.error (.graph error), session) := by
  rw [extract, perform_bind, perform_getModel]
  simp only
  cases session.model.graph.extract output .none <;> rfl

theorem generate_of_declared (tame : simplifier.Tame) (fit : Fit simplifier ready)
    (declared : declareCoordinates.perform later = (.ok ⟨⟩, ready))
    (orderly : ready.model.graph.Orderly ready.supply.next) :
    ∃ final, Fit simplifier final ∧ final.model.graph.built = true ∧
      (∀ output, (generate output).perform later = (extract output).perform final) ∧
      (ready.model.graph.built = true ∧ final = ready ∨
        ready.model.graph.built = false ∧
          ∃ levels, graphSession final = (graphSession ready).rebuilt levels) := by
  have asked (output : CategorySet) : (generate output).perform later =
      (assemble >>= fun _ => extract output).perform ready := by
    rw [generate_eq, perform_bind, declared]
  cases built : ready.model.graph.built with
  | true =>
      refine ⟨ready, fit, built, fun output => ?_, .inl ⟨rfl, rfl⟩⟩
      rw [asked, perform_bind, assemble_built built]
  | false =>
      have simplifies := (fit.graph.fit tame).simplifier_eq ▸ tame
      have graphOrderly : (graphSession ready).graph.Orderly (graphSession ready).supply.next := orderly
      obtain ⟨levels, report, _, succeeds⟩ := graphOrderly.build_ok simplifies.toModest
      have advanced := fit.advance tame (advances_give ready .build trivial) ⟨rfl, rfl, rfl, rfl, rfl⟩
      rw [Session.give, Graph.Command.apply, Graph.Command.action, Graph.perform_ignore, succeeds]
        at advanced
      refine ⟨_, advanced, rfl, fun output => ?_, .inr ⟨rfl, levels, rfl⟩⟩
      rw [asked, perform_bind, perform_assemble built, succeeds]

theorem Serves.listed {final : Session κ} (serves : Serves final symbol) (tame : simplifier.Tame)
    (fit : Fit simplifier final) (built : final.model.graph.built = true) :
    ∃ list, (extract (.only .variable)).perform final = (.ok list, final) ∧ list.Defines symbol := by
  obtain ⟨node, found, categories⟩ := serves
  obtain ⟨index, _, live⟩ := Graph.nodeOf?_eq_some.mp found
  have chosen : final.model.graph.Chosen (.only .variable) .none index :=
    ⟨node, live, by rw [categories]; decide, by rw [categories]; decide⟩
  obtain ⟨numbers, list, extracted, exact⟩ :=
    (fit.graph.fit tame).valid.extract_of_chosen built ⟨index, chosen⟩
  change final.model.graph.extract (.only .variable) .none = .ok list at extracted
  refine ⟨list, by rw [perform_extract, extracted], ?_⟩
  obtain ⟨position, other, _, again, place⟩ :=
    Graph.forall₂_number exact.equations ((exact.closure index).mpr ⟨index, chosen, .refl⟩)
  obtain rfl : node = other := Option.some.inj (live.symm.trans again)
  exact ⟨_, List.mem_of_getElem? place, (fit.graph.fit tame).valid.toLawful.symbol_eq found⟩

theorem isDefined_of_listed {final after : Session κ} (tame : simplifier.Tame)
    (fit : Fit simplifier final) {output : CategorySet} {list : EquationList κ}
    (extracted : (extract output).perform final = (.ok list, after)) (defines : list.Defines symbol) :
    final.model.graph.isDefined symbol = true := by
  have valid := (fit.graph.fit tame).valid
  rw [perform_extract] at extracted
  split at extracted
  · rename_i found
    cases extracted
    obtain ⟨_, numbers, exact⟩ := Graph.extracted_of_ok valid found
    obtain ⟨equation, member, rfl⟩ := defines
    obtain ⟨position, place⟩ := List.mem_iff_getElem?.mp member
    obtain ⟨index, node, _, live, rfl⟩ := Graph.forall₂_position exact.equations place
    exact Graph.isDefined_iff.mpr ⟨node, valid.toLawful.nodeOf?_symbol live⟩
  · cases extracted

theorem Serves.rebuilt {final : Session κ} {levels : List (List Nat)}
    (serves : Serves ready symbol) (tame : simplifier.Tame) (fit : Fit simplifier ready)
    (orderly : ready.model.graph.Orderly ready.supply.next)
    (same : graphSession final = (graphSession ready).rebuilt levels)
    (kept : ¬Graph.Discards (graphSession ready) symbol) : Serves final symbol := by
  obtain ⟨node, found, categories⟩ := serves
  have graphFit := fit.graph.fit tame
  have defined : ready.model.graph.isDefined symbol = true := Graph.isDefined_iff.mpr ⟨node, found⟩
  have graph : final.model.graph = ((graphSession ready).rebuilt levels).graph :=
    congrArg Graph.Session.graph same
  obtain ⟨other, live⟩ := Graph.isDefined_iff.mp
    ((Graph.isDefined_rebuilt graphFit tame.toModest orderly levels defined).mpr kept)
  obtain ⟨again, before, origin⟩ := (Graph.rebuilt_stems graphFit tame.toModest orderly levels).origin
    (graphFit.valid.toLawful.defined_issued defined) live
  obtain rfl : node = again := Option.some.inj (found.symm.trans before)
  exact ⟨other, graph ▸ live, origin.categories.trans categories⟩

/-- What becomes of the equation of a symbol when the intermediate equations are generated. -/
structure Fate (later ready : Session κ) (symbol : Symbol) : Prop where
  listed : ¬Removes ready symbol → ∃ list final,
    (generate (.only .variable)).perform later = (.ok list, final) ∧ list.Defines symbol
  /-- What is removed is in no list, and stays known as the alias of a symbol that has a value. -/
  removed : Removes ready symbol →
    (∀ list final, (generate (.only .variable)).perform later = (.ok list, final) →
      ¬list.Defines symbol) ∧
    ∃ last, ((generate (.only .variable)).perform later).2.model.graph.aliases.find? symbol =
        some (.ofSymbol last) ∧
      (((generate (.only .variable)).perform later).2.model.graph.isDefined last = true ∨
        ((generate (.only .variable)).perform later).2.model.graph.isInput last = true)

theorem Serves.fate (serves : Serves ready symbol) (tame : simplifier.Tame)
    (fit : Fit simplifier ready) (declared : declareCoordinates.perform later = (.ok ⟨⟩, ready))
    (orderly : ready.model.graph.Orderly ready.supply.next) : Fate later ready symbol := by
  obtain ⟨final, finalFit, built, generates, way⟩ := generate_of_declared tame fit declared orderly
  have graphFit := fit.graph.fit tame
  have defined := serves.isDefined
  constructor
  · intro stays
    have still : Serves final symbol := by
      rcases way with ⟨_, rfl⟩ | ⟨unbuilt, levels, same⟩
      · exact serves
      · exact serves.rebuilt tame fit orderly same fun discards => stays ⟨unbuilt, discards⟩
    obtain ⟨list, extracted, defines⟩ := still.listed tame finalFit built
    exact ⟨list, final, (generates _).trans extracted, defines⟩
  · rintro ⟨unbuilt, discards⟩
    rcases way with ⟨already, _⟩ | ⟨_, levels, same⟩
    · rw [unbuilt] at already
      cases already
    · have graph : final.model.graph = ((graphSession ready).rebuilt levels).graph :=
        congrArg Graph.Session.graph same
      obtain ⟨gone, known⟩ := Graph.alias_rebuilt graphFit tame.toModest orderly levels defined discards
      rw [← graph] at gone known
      have last : ((extract (.only .variable)).perform final).2 = final := by
        rw [perform_extract]
        split <;> rfl
      rw [generates, last]
      refine ⟨fun list after listed defines => ?_, known⟩
      rw [isDefined_of_listed tame finalFit listed defines] at gone
      cases gone

/-- Right after the equations of motion have been reduced, each of the three is an equation of the
model. Whatever is asked of the model then apart from the removal of equations, each of them stays
known; and whenever it is an equation, the intermediate equations that are generated from bound
equations without cycles hold it, unless the build removes it, as the passes have left nothing of it
but another symbol. The symbol of a removed one is the alias of that symbol. -/
theorem generate_dynamics [ScalarText κ] (tame : simplifier.Tame)
    (reachable : Reachable simplifier session) {coordinates : List Coordinate} {motion : Motion κ}
    {dynamics : Dynamics} (regular : motion.Regular session.supply.next)
    (reduces : (reduceDynamics coordinates motion).perform session = (.ok dynamics, reduced)) :
    ∀ symbol ∈ dynamics.symbols, Serves reduced symbol ∧
      ∀ later, LeadsBy (fun _ command => command.Spares) reduced later →
        later.model.graph.Retains symbol ∧
          ∀ ready, declareCoordinates.perform later = (.ok ⟨⟩, ready) →
            ready.model.graph.Retains symbol ∧ (Serves later symbol → Serves ready symbol) ∧
              (ready.model.graph.Bound →
                (∀ other, ¬TransGen ready.model.graph.Reads other other) →
                  Serves ready symbol → Fate later ready symbol) := by
  obtain ⟨reducedFit, serving⟩ := reduceDynamics_eq_ok regular tame (reachable.fit tame) reduces
  intro symbol member
  have serves := serving symbol member
  have issued := (reducedFit.graph.fit tame).valid.toLawful.defined_issued serves.isDefined
  refine ⟨serves, fun later follows => ?_⟩
  have moves := follows.moves tame reducedFit
  have laterFit := moves.fit tame reducedFit
  have accrues := moves.accrues tame reducedFit
  refine ⟨Graph.Leads.retains accrues tame reducedFit.graph issued (.inl serves.isDefined),
    fun ready declared => ?_⟩
  obtain ⟨prepares, _⟩ := prepares_declareCoordinates tame laterFit
  rw [declared] at prepares
  obtain ⟨symbols, declares⟩ := prepares.declares
  have readyFit := prepares.fit tame laterFit
  have lawful := (readyFit.graph.fit tame).valid.toLawful
  have conserves : Conserves later ready :=
    declares.leads.mono fun _ _ ⟨_, _, _, _, same⟩ => same ▸ trivial
  refine ⟨Graph.Leads.retains (accrues.trans declares.accrues) tame reducedFit.graph issued
    (.inl serves.isDefined), fun serves => serves.conserved conserves tame laterFit, ?_⟩
  intro bound acyclic serves
  exact serves.fate tame readyFit declared
    ⟨lawful, bound, (Graph.acyclic_iff lawful).mpr acyclic⟩

end

namespace Pendulum

def u : Coordinate := (Coordinate.fresh ⟨1⟩ "u").1

def m : Symbol := ⟨4, "m", .scalar, .real⟩

def c : Symbol := ⟨5, "c", .scalar, .real⟩

noncomputable def motion : Motion RealNumber :=
  ⟨.ofSymbol m, .ofSymbol c, .ofExpr (.call .sin (.atom u.atom))⟩

noncomputable def given : Session RealNumber :=
  (Command.parameter "c" (.ofExpr .one)).apply ((Command.parameter "m" (.ofExpr .one)).apply
    ((Command.coordinate "u").apply ⟨ofSettings .standard Simplifier.keep, ⟨1⟩⟩))

theorem reachable : Reachable Simplifier.keep given :=
  .step _ (.step _ (.step _ (.start ⟨1⟩ new_standard) trivial trivial) trivial trivial) trivial trivial

theorem regular : motion.Regular given.supply.next where
  mass := Tensor.regular_ofSymbol (by decide : 4 < 6)
  bias := Tensor.regular_ofSymbol (by decide : 5 < 6)
  forces := ⟨rfl, fun _ member atom occurs => by
    obtain rfl := List.mem_singleton.mp member
    obtain rfl := List.mem_singleton.mp occurs
    exact ⟨Nat.zero_lt_one, (by decide : 1 < 6)⟩⟩

open Mechanism.Expr

theorem reduce_motion :
    motion.reduce (.ofExpr one) (.ofExpr zero) = .ok motion := by
  have product (left right : Expr RealNumber) :
      (Tensor.ofExpr left).matmul (.ofExpr right) = .ok (.ofExpr (right * left)) := rfl
  have sum (left right : Expr RealNumber) :
      (Tensor.ofExpr left).add (.ofExpr right) = .ok (.ofExpr (left + right)) := rfl
  have transposed : (Tensor.ofExpr (one : Expr RealNumber)).transpose = .ofExpr one := rfl
  have mass : motion.mass = .ofExpr (.atom (.whole m)) := rfl
  have bias : motion.bias = .ofExpr (.atom (.whole c)) := rfl
  have forces : motion.forces = .ofExpr (.call .sin (.atom u.atom)) := rfl
  simp only [Motion.reduce, transposed, mass, bias, forces, product, sum, bind, pure, Except.bind,
    Except.pure, (plain_atom _).one_times, (plain_atom _).times_one, (plain_atom _).zero_times,
    (plain_call _ _).times_one, zero_plus_atom]
  rfl

theorem reducedMotion_eq : given.model.reducedMotion [u] motion = .ok ([u], motion) := by
  have fits : motion.fault? [u].length = none := by decide
  have listed : given.model.checkListed [] [u] = .ok ⟨⟩ := by rfl
  have free : [u].filter (fun coordinate => !given.model.isClosed coordinate) = [u] := by
    decide
  have composed : given.model.accelerationMap [u] [u] = .ok (.ofExpr one, .ofExpr zero) := rfl
  have new : given.model.dynamics.isSome = false := rfl
  simp only [reducedMotion, new, fits, listed, free, composed, reduce_motion, bind, pure, Except.bind,
    Except.pure, Except.mapError, Bool.false_eq_true, if_false]

noncomputable def reduced : Session RealNumber := ((reduceDynamics [u] motion).perform given).2

def dynamics : Dynamics :=
  ⟨[u], ⟨6, "M_star", .scalar, .real⟩, ⟨7, "h_star", .scalar, .real⟩, ⟨8, "f_star", .scalar, .real⟩⟩

theorem reduces : (reduceDynamics [u] motion).perform given = (.ok dynamics, reduced) := by
  have answer : ((reduceDynamics [u] motion).perform given).1 = .ok dynamics := by
    rw [reduceDynamics, perform_bind, perform_getModel]
    simp only [reducedMotion_eq]
    rfl
  exact Prod.ext answer rfl

theorem reduced_eq : reduced = ((do
    let mass ← define "M_star" motion.mass (.only .variable)
    let bias ← define "h_star" motion.bias (.only .variable)
    let forces ← define "f_star" motion.forces (.only .variable)
    modifyModel fun model => { model with dynamics := some ⟨[u], mass, bias, forces⟩ }
    return (⟨[u], mass, bias, forces⟩ : Dynamics) : Action RealNumber Dynamics).perform given).2 := by
  rw [reduced, reduceDynamics, perform_bind, perform_getModel]
  simp only [reducedMotion_eq]

/-- The session in which the coordinate is an input. -/
noncomputable def ready : Session RealNumber := (declareCoordinates.perform reduced).2

theorem declared : declareCoordinates.perform reduced = (.ok ⟨⟩, ready) := by
  have answer : (declareCoordinates.perform reduced).1 = .ok ⟨⟩ := by
    rw [reduced_eq]
    rfl
  exact Prod.ext answer rfl

theorem fit_ready : Fit Simplifier.keep ready := by
  obtain ⟨fit, _⟩ :=
    reduceDynamics_eq_ok regular Simplifier.keep_tame (reachable.fit Simplifier.keep_tame) reduces
  exact (prepares_declareCoordinates Simplifier.keep_tame fit).1.fit Simplifier.keep_tame fit

theorem sound : ready.model.graph.Bound ∧
    ∀ symbol, ¬TransGen ready.model.graph.Reads symbol symbol := by
  have lawful := (fit_ready.graph.fit Simplifier.keep_tame).valid.toLawful
  have unbound : ready.model.graph.unbound? = none := by
    rw [ready, reduced_eq]
    exact Option.isNone_iff_eq_none.mp (by with_unfolding_all decide)
  have levels : ready.model.graph.findLevels = .ok [[0, 1, 2]] := by
    rw [ready, reduced_eq]
    with_unfolding_all decide
  have bound := (Graph.unbound?_eq_none lawful).mp unbound
  exact ⟨bound, (Graph.acyclic_iff lawful).mp (lawful.orderly_of_levels bound levels).acyclic⟩

theorem generated : ((generate (.only .variable)).perform reduced).1.toOption.map
    (fun list => list.equations.map Equation.symbol) = some [dynamics.forces] := by
  rw [reduced_eq]
  decide +kernel

end Pendulum

theorem pendulum_generates : Reachable Simplifier.keep Pendulum.given ∧
    (reduceDynamics [Pendulum.u] Pendulum.motion).perform Pendulum.given =
      (.ok Pendulum.dynamics, Pendulum.reduced) ∧
    ∀ symbol ∈ Pendulum.dynamics.symbols,
      Serves Pendulum.ready symbol ∧ Fate Pendulum.reduced Pendulum.ready symbol := by
  refine ⟨Pendulum.reachable, Pendulum.reduces, fun symbol member => ?_⟩
  obtain ⟨serves, rest⟩ := generate_dynamics Simplifier.keep_tame Pendulum.reachable
    Pendulum.regular Pendulum.reduces symbol member
  obtain ⟨_, kept, fate⟩ := (rest Pendulum.reduced .start).2 Pendulum.ready Pendulum.declared
  exact ⟨kept serves, fate Pendulum.sound.1 Pendulum.sound.2 (kept serves)⟩

/-- The reduced mass is a parameter, and so is the reduced bias: neither has an equation among those
that are generated. -/
theorem pendulum_unlisted : Reachable Simplifier.keep Pendulum.given ∧
    Pendulum.motion.Regular Pendulum.given.supply.next ∧
    (reduceDynamics [Pendulum.u] Pendulum.motion).perform Pendulum.given =
      (.ok Pendulum.dynamics, Pendulum.reduced) ∧
    declareCoordinates.perform Pendulum.reduced = (.ok ⟨⟩, Pendulum.ready) ∧
    Pendulum.ready.model.graph.Bound ∧
    (∀ symbol, ¬TransGen Pendulum.ready.model.graph.Reads symbol symbol) ∧
    ∃ list final, (generate (.only .variable)).perform Pendulum.reduced = (.ok list, final) ∧
      ¬list.Defines Pendulum.dynamics.mass ∧ ¬list.Defines Pendulum.dynamics.bias ∧
        list.Defines Pendulum.dynamics.forces := by
  refine ⟨Pendulum.reachable, Pendulum.regular, Pendulum.reduces, Pendulum.declared,
    Pendulum.sound.1, Pendulum.sound.2, ?_⟩
  have generated := Pendulum.generated
  rcases ran : (generate (.only .variable)).perform Pendulum.reduced with ⟨_ | list, final⟩ <;>
    rw [ran] at generated
  · cases generated
  · have symbols : list.equations.map Equation.symbol = [Pendulum.dynamics.forces] :=
      Option.some.inj generated
    have defines (symbol : Symbol) : list.Defines symbol ↔ symbol = Pendulum.dynamics.forces := by
      rw [EquationList.Defines, ← List.mem_map, symbols, List.mem_singleton]
    refine ⟨list, final, rfl, ?_, ?_, (defines _).mpr rfl⟩
    · rw [defines]
      decide
    · rw [defines]
      decide

end Model

end Mechanism
