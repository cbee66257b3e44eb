import Mechanism.Proofs.Loop.Repetition
import Mechanism.Proofs.Model.Inputs

/-!
What is asked of a model twice. A query, a build or a reduction that fails fails again in the same
way, unless it has left a coordinate half declared.
-/

open Relation (ReflTransGen)

namespace Mechanism.Model

open Mechanism.Model.Action

variable {κ α : Type} [Scalar κ] {simplifier : Simplifier κ} {session middle later : Session κ}

/-- The graphs of the sessions are related, and everything else is the same. -/
structure Beside (relation : Graph.Session κ → Graph.Session κ → Prop) (one other : Session κ) :
    Prop where
  model : other.model = { one.model with graph := other.model.graph }
  graphs : relation (graphSession one) (graphSession other)

variable {pre post : Graph.Session κ → Graph.Session κ → Prop}

theorem Beside.withGraph {one other : Session κ} (beside : Beside pre one other)
    {work otherWork : Graph.Session κ} (related : post work otherWork) :
    Beside post (one.withGraph work) (other.withGraph otherWork) :=
  ⟨by rw [Session.withGraph, beside.model]; rfl, related⟩

theorem agrees_onGraph {action : Graph.Action κ α} (agrees : Agrees pre post action) :
    Agrees (Beside pre) (Beside post) (onGraph action) := by
  intro one other beside
  obtain ⟨same, related⟩ := agrees _ _ beside.graphs
  change ((onGraph action).perform other).1 = ((onGraph action).perform one).1 ∧
    Beside post ((onGraph action).perform one).2 ((onGraph action).perform other).2
  rw [perform_onGraph, perform_onGraph]
  change (action.perform _).1 = (action.perform _).1 at same
  have later := beside.withGraph related
  unfold Graph.Action.perform at same ⊢
  generalize action.run.run (graphSession one) = left at same later
  generalize action.run.run (graphSession other) = right at same later
  obtain ⟨result, work⟩ := left
  obtain ⟨otherResult, otherWork⟩ := right
  obtain rfl : result = otherResult := same.symm
  cases result <;> exact ⟨rfl, later⟩

def Ready (model : Model κ) : Prop :=
  ∀ coordinate ∈ model.independentCoordinates, model.graph.isInput coordinate.position = true

/-- The position is an input, but one of the symbols of the coordinate is none. -/
def HalfDeclared (model : Model κ) (coordinate : Coordinate) : Prop :=
  model.graph.isInput coordinate.position = true ∧
    ∃ symbol ∈ coordinate.symbols, model.graph.isInput symbol = false

instance (model : Model κ) (coordinate : Coordinate) : Decidable (model.HalfDeclared coordinate) :=
  inferInstanceAs (Decidable (_ ∧ _))

theorem declareCoordinate_input {coordinate : Coordinate}
    (input : session.model.graph.isInput coordinate.position = true) :
    (declareCoordinate coordinate).perform session = (.ok ⟨⟩, session) := by
  rw [declareCoordinate, perform_bind, perform_getModel]
  simp only [input, if_true]
  rfl

theorem forM_declareCoordinate_inputs {coordinates : List Coordinate}
    (inputs : ∀ coordinate ∈ coordinates,
      session.model.graph.isInput coordinate.position = true) :
    (coordinates.forM declareCoordinate).perform session = (.ok ⟨⟩, session) := by
  induction coordinates with
  | nil => rfl
  | cons head tail ih =>
      rw [List.forall_mem_cons] at inputs
      rw [List.forM, perform_bind, declareCoordinate_input inputs.1]
      exact ih inputs.2

theorem declareCoordinates_ready (ready : session.model.Ready) :
    declareCoordinates.perform session = (.ok ⟨⟩, session) := by
  rw [declareCoordinates, perform_bind, perform_getModel]
  exact forM_declareCoordinate_inputs ready

theorem independentCoordinates_eq {before after : Model κ} (parts : SameParts before after) :
    after.independentCoordinates = before.independentCoordinates := by
  rw [independentCoordinates, allCoordinates, parts.coordinates]
  unfold isClosed
  rw [parts.closedBy]
  rfl

theorem ready_of_declared (tame : simplifier.Tame) (fit : Fit simplifier session)
    (declared : declareCoordinates.perform session = (.ok ⟨⟩, later)) : later.model.Ready := by
  intro coordinate member
  have all := (prepares_declareCoordinates tame fit).2 later declared
  obtain ⟨among, free⟩ := List.mem_filter.mp member
  exact (all coordinate among).resolve_left fun closed => by
    rw [closed] at free
    cases free

theorem declareCoordinate_again {coordinate : Coordinate} {error : ModelError κ}
    (known : session.model.coordinates.find? coordinate.name = some coordinate)
    (tame : simplifier.Tame) (fit : Fit simplifier session) (tidy : Tidy session)
    (failed : (declareCoordinate coordinate).perform session = (.error error, later))
    (whole : later.model.HalfDeclared coordinate →
      session.model.graph.isInput coordinate.position = true) :
    ((declareCoordinate coordinate).perform later).1 = .error error := by
  cases new : session.model.graph.isInput coordinate.position with
  | true =>
      rw [declareCoordinate_input new] at failed
      cases failed
  | false =>
      rcases declareCoordinate_cases tidy known new tame fit with
        ⟨reason, refused, stopped⟩ | ⟨answer, reached, ran, input, outcome⟩
      · rw [stopped] at failed
        cases failed
        have again : (declareRate coordinate.position .state).perform
            (session.release coordinate.position) = _ := declareRate_refused refused
        have still : (session.release coordinate.position).model.graph.isInput coordinate.position =
          false := new
        rw [declareCoordinate_new still, perform_bind, again]
      · rw [ran] at failed
        cases failed
        have known := whole ⟨input, outcome.resolve_left nofun⟩
        exact absurd (known.symm.trans new) (by decide)

theorem forM_declareCoordinate_again {coordinates : List Coordinate} {error : ModelError κ}
    (known : ∀ coordinate ∈ coordinates,
      session.model.coordinates.find? coordinate.name = some coordinate ∧
        session.model.isClosed coordinate = false)
    (tame : simplifier.Tame) (fit : Fit simplifier session) (tidy : Tidy session)
    (failed : (coordinates.forM declareCoordinate).perform session = (.error error, later))
    (whole : ∀ coordinate ∈ coordinates, later.model.HalfDeclared coordinate →
      session.model.graph.isInput coordinate.position = true) :
    ((coordinates.forM declareCoordinate).perform later).1 = .error error := by
  induction coordinates generalizing session with
  | nil => cases failed
  | cons head tail ih =>
      rw [List.forall_mem_cons] at whole
      obtain ⟨prepares, roles⟩ := prepares_declareCoordinate (known head List.mem_cons_self).1
        (known head List.mem_cons_self).2 tame fit
      rw [List.forM, perform_bind] at failed
      rw [List.forM, perform_bind]
      rcases ran : (declareCoordinate head).perform session with ⟨reason | done, middle⟩
      all_goals rw [ran] at failed prepares
      · cases failed
        have again := declareCoordinate_again (known head List.mem_cons_self).1 tame fit tidy ran whole.1
        generalize (declareCoordinate head).perform later = outcome at again ⊢
        obtain ⟨answer, _⟩ := outcome
        obtain rfl : answer = .error error := again
        rfl
      · simp only at failed
        have middleFit := prepares.fit tame fit
        have kept : ∀ coordinate ∈ tail,
            middle.model.coordinates.find? coordinate.name = some coordinate ∧
              middle.model.isClosed coordinate = false := by
          intro coordinate member
          rw [prepares.parts.coordinates, prepares.isClosed_eq]
          exact known coordinate (List.mem_cons_of_mem _ member)
        have rest := ih kept middleFit (prepares.steps.tidy tame fit tidy) failed
          fun coordinate member half =>
            (prepares.graph_later tame fit).inputs _ (whole.2 coordinate member half)
        -- what has been declared is passed over
        have input : later.model.graph.isInput head.position = true := by
          have declared := (roles middle ran).resolve_left fun closed => by
            rw [prepares.isClosed_eq, (known head List.mem_cons_self).2] at closed
            cases closed
          have further := (prepares_forM_declareCoordinate kept tame middleFit).1
          rw [failed] at further
          exact (further.graph_later tame middleFit).inputs _ declared
        rw [declareCoordinate_input input]
        exact rest

theorem declareCoordinates_again {error : ModelError κ} (tame : simplifier.Tame)
    (fit : Fit simplifier session) (tidy : Tidy session)
    (failed : declareCoordinates.perform session = (.error error, later))
    (whole : ∀ coordinate ∈ session.model.independentCoordinates,
      later.model.HalfDeclared coordinate → session.model.HalfDeclared coordinate) :
    (declareCoordinates.perform later).1 = .error error := by
  have prepares := (prepares_declareCoordinates tame fit).1
  rw [failed] at prepares
  rw [declareCoordinates, perform_bind, perform_getModel] at failed ⊢
  simp only at failed ⊢
  rw [independentCoordinates_eq prepares.parts]
  exact forM_declareCoordinate_again fit.open tame fit tidy failed fun coordinate member half =>
    (whole coordinate member half).1

theorem Fit.sane (fit : Fit simplifier session) (tame : simplifier.Tame) :
    Graph.Sane (graphSession session) := fit.graph.sane tame

theorem sanePeers_of_evaluates {work after : Graph.Session κ} (sane : Graph.Sane work)
    (evaluates : ReflTransGen Graph.Evaluates work after) : Graph.SanePeers work after :=
  ⟨Graph.peers_of_evaluates evaluates, sane, Graph.sane_of_evaluates evaluates sane⟩

theorem evaluates_forM_verify (entries : List (String × Loop.Descriptor κ))
    (work : Graph.Session κ) : ReflTransGen Graph.Evaluates work
      ((entries.forM fun entry => entry.2.verify).perform work).2 :=
  Loop.Action.forM_related (fun _ => .refl) ReflTransGen.trans
    (fun entry => entry.2.verify_evaluates) entries work

theorem agrees_forM_verify (entries : List (String × Loop.Descriptor κ)) :
    Agrees Graph.SanePeers Graph.SanePeers (entries.forM fun entry => entry.2.verify) :=
  .forM fun entry => entry.2.agrees_verify

theorem verifyLoops_again {error : ModelError κ} (sane : Graph.Sane (graphSession session))
    (failed : verifyLoops.perform session = (.error error, later)) :
    (verifyLoops.perform later).1 = .error error ∧
      ∃ work, later = session.withGraph work ∧
        ReflTransGen Graph.Evaluates (graphSession session) work := by
  by_cases due : session.model.checkedRevision = some session.model.graph.store.revision
  · rw [verifyLoops_known due] at failed
    cases failed
  · rw [verifyLoops_due due] at failed
    have evaluates := evaluates_forM_verify session.model.loops.entries (graphSession session)
    rcases ran : (session.model.loops.entries.forM fun entry => entry.2.verify).perform
      (graphSession session) with ⟨reason | done, work⟩ <;> rw [ran] at failed evaluates <;> cases failed
    refine ⟨?_, work, rfl, evaluates⟩
    have peers := sanePeers_of_evaluates sane evaluates
    have still : (session.withGraph work).model.checkedRevision ≠
        some (session.withGraph work).model.graph.store.revision := by
      change session.model.checkedRevision ≠ some work.graph.store.revision
      rwa [peers.twin.store.revision]
    have again := (agrees_forM_verify session.model.loops.entries _ _ peers).1
    change ((session.model.loops.entries.forM fun entry => entry.2.verify).perform work).1 =
      ((session.model.loops.entries.forM fun entry => entry.2.verify).perform _).1 at again
    rw [ran] at again
    have loops : (session.withGraph work).model.loops = session.model.loops := rfl
    rw [verifyLoops_due still, loops, graphSession_withGraph]
    generalize (session.model.loops.entries.forM fun entry => entry.2.verify).perform work =
      outcome at again ⊢
    obtain ⟨answer, _⟩ := outcome
    obtain rfl : answer = .error reason := again
    rfl

theorem Verified.checked (verified : Verified session later) :
    later.model.checkedRevision = some later.model.graph.store.revision ∧
      ∃ work, ReflTransGen Graph.Evaluates (graphSession session) work ∧
        graphSession later = work ∧ SameParts session.model later.model := by
  cases verified with
  | known same => exact ⟨same, _, .refl, rfl, rfl, rfl, rfl, rfl, rfl⟩
  | @found work checks =>
      have evaluates := evaluates_forM_verify session.model.loops.entries (graphSession session)
      rw [checks.verified] at evaluates
      refine ⟨?_, work, evaluates, rfl, rfl, rfl, rfl, rfl, rfl⟩
      exact congrArg some (Graph.peers_of_evaluates evaluates).twin.store.revision.symm

/-- An action that starts with the declaration of the coordinates, and whose rest fails again where
they are declared, fails again. -/
theorem declared_again {rest : Action κ α} {error : ModelError κ} (tame : simplifier.Tame)
    (fit : Fit simplifier session) (tidy : Tidy session)
    (again : ∀ middle, Fit simplifier middle → middle.model.Ready →
      ∀ later, rest.perform middle = (.error error, later) →
        later.model.Ready ∧ (rest.perform later).1 = .error error)
    (failed : (do declareCoordinates; rest : Action κ α).perform session = (.error error, later))
    (whole : ∀ coordinate ∈ session.model.independentCoordinates,
      later.model.HalfDeclared coordinate → session.model.HalfDeclared coordinate) :
    ((do declareCoordinates; rest : Action κ α).perform later).1 = .error error := by
  have prepares := (prepares_declareCoordinates tame fit).1
  rw [perform_bind] at failed ⊢
  rcases ran : declareCoordinates.perform session with ⟨reason | done, middle⟩ <;>
    rw [ran] at failed prepares
  · cases failed
    have same := declareCoordinates_again tame fit tidy ran whole
    generalize declareCoordinates.perform later = outcome at same ⊢
    obtain ⟨answer, _⟩ := outcome
    obtain rfl : answer = .error error := same
    rfl
  · obtain ⟨ready, same⟩ := again middle (prepares.fit tame fit) (ready_of_declared tame fit ran) later
      failed
    rw [declareCoordinates_ready ready]
    exact same

theorem Ready.markChecked (ready : session.model.Ready) :
    (session.markChecked (graphSession session)).model.Ready := ready

theorem Ready.evaluates {work : Graph.Session κ} (ready : session.model.Ready)
    (evaluates : ReflTransGen Graph.Evaluates (graphSession session) work) :
    (session.withGraph work).model.Ready := by
  intro coordinate member
  refine Eq.trans ?_ (ready coordinate member)
  exact Graph.isInput_eq_of_evaluates evaluates

/-- A query of the values of a model, which does nothing but evaluate. -/
structure Asking (query : Graph.Action κ α) : Prop where
  agrees : Agrees Graph.SanePeers Graph.SanePeers query
  evaluates : ∀ work, ReflTransGen Graph.Evaluates work (query.perform work).2

theorem query_again {query : Graph.Action κ α} {error : ModelError κ} (asking : Asking query)
    (tame : simplifier.Tame) (fit : Fit simplifier session) (ready : session.model.Ready)
    (failed : (do verifyLoops; onGraph query : Action κ α).perform session = (.error error, later)) :
    later.model.Ready ∧
      ((do verifyLoops; onGraph query : Action κ α).perform later).1 = .error error := by
  rw [perform_bind] at failed ⊢
  rcases verifyLoops_cases session with ⟨reason, middle, ran, _⟩ | ⟨middle, ran, verified⟩
  · rw [ran] at failed
    cases failed
    obtain ⟨again, work, rfl, evaluates⟩ := verifyLoops_again (fit.sane tame) ran
    refine ⟨ready.evaluates evaluates, ?_⟩
    generalize verifyLoops.perform (session.withGraph work) = outcome at again ⊢
    obtain ⟨answer, _⟩ := outcome
    obtain rfl : answer = .error error := again
    rfl
  · rw [ran] at failed
    simp only at failed
    obtain ⟨checked, work, evaluates, same, parts⟩ := verified.checked
    have sane : Graph.Sane (graphSession middle) :=
      same ▸ Graph.sane_of_evaluates evaluates (fit.sane tame)
    have middleReady : middle.model.Ready := by
      intro coordinate member
      rw [independentCoordinates_eq parts] at member
      refine Eq.trans ?_ (ready coordinate member)
      exact Graph.isInput_eq_of_evaluates (same ▸ evaluates)
    have asked := asking.evaluates (graphSession middle)
    have peers := sanePeers_of_evaluates sane asked
    have again := (asking.agrees _ _ peers).1
    rw [perform_onGraph] at failed
    unfold Graph.Action.perform at failed asked peers again
    generalize finish : query.run.run (graphSession middle) = outcome at failed asked peers again
    obtain ⟨answer, after⟩ := outcome
    obtain reason | value := answer <;> cases failed
    have known : (middle.withGraph after).model.checkedRevision =
        some (middle.withGraph after).model.graph.store.revision := by
      refine checked.trans (congrArg some ?_)
      exact peers.twin.store.revision.symm
    refine ⟨middleReady.evaluates asked, ?_⟩
    rw [verifyLoops_known known]
    simp only
    rw [perform_onGraph, graphSession_withGraph]
    unfold Graph.Action.perform
    generalize query.run.run after = outcome at again ⊢
    obtain ⟨answer, _⟩ := outcome
    obtain rfl : answer = .error reason := again
    rfl

def assemble : Action κ (Option Graph.BuildReport) := do
  if (← getModel).graph.built then return none
  return some (← onGraph Graph.build)

theorem build_eq : (build : Action κ _) = (do declareCoordinates; assemble) := rfl

theorem assemble_built (built : session.model.graph.built = true) :
    assemble.perform session = (.ok none, session) := by
  rw [assemble, perform_bind, perform_getModel]
  simp only [built, if_true]
  rfl

theorem perform_assemble (unbuilt : session.model.graph.built = false) :
    assemble.perform session =
      match Graph.build.perform (graphSession session) with
      | (.ok report, work) => (.ok (some report), session.withGraph work)
      | (.error error, work) => (.error (.graph error), session.withGraph work) := by
  rw [assemble, perform_bind, perform_getModel]
  simp only [unbuilt, Bool.false_eq_true, if_false]
  rw [perform_bind, perform_onGraph]
  rcases Graph.build.perform (graphSession session) with ⟨_ | _, _⟩ <;> rfl

theorem built_of_build {report : Graph.BuildReport} {work : Graph.Session κ} (tame : simplifier.Tame)
    (fit : Fit simplifier session)
    (succeeds : Graph.build.perform (graphSession session) = (.ok report, work)) :
    work.graph.built = true := by
  have graphFit := fit.graph.fit tame
  rcases Graph.build_outcome graphFit.valid.toLawful (graphFit.simplifier_eq ▸ tame.toModest) with
    ⟨_, fails | fails⟩ | ⟨_, _, _, _, same⟩
  · rw [fails] at succeeds
    cases succeeds
  · rw [fails] at succeeds
    cases succeeds
  · rw [same] at succeeds
    cases succeeds
    rfl

theorem Ready.build {outcome : Except (GraphError κ) Graph.BuildReport × Graph.Session κ}
    (ready : session.model.Ready) (tame : simplifier.Tame) (fit : Fit simplifier session)
    (ran : Graph.build.perform (graphSession session) = outcome) :
    (session.withGraph outcome.2).model.Ready := by
  intro coordinate member
  refine Eq.trans ?_ (ready coordinate member)
  have same : (Graph.Command.build.apply (graphSession session)).graph.isInput coordinate.position =
      session.model.graph.isInput coordinate.position :=
    Graph.isInput_apply .build tame (fit.graph.fit tame) nofun
  rwa [Graph.Command.apply, Graph.Command.action, Graph.perform_ignore, ran] at same

/-- A build that fails fails again; and what is asked of a built graph is asked of the same graph
again. -/
theorem assemble_again {next : Option Graph.BuildReport → Action κ α} {error : ModelError κ}
    (harmless : ∀ report other (session later : Session κ),
      (next report).perform session = (.error error, later) →
        later = session ∧ ((next other).perform session).1 = .error error)
    (tame : simplifier.Tame) (fit : Fit simplifier session) (ready : session.model.Ready)
    (failed : (assemble >>= next).perform session = (.error error, later)) :
    later.model.Ready ∧ ((assemble >>= next).perform later).1 = .error error := by
  rw [perform_bind] at failed ⊢
  cases built : session.model.graph.built with
  | true =>
      rw [assemble_built built] at failed
      obtain ⟨rfl, again⟩ := harmless _ none _ _ failed
      rw [assemble_built built]
      exact ⟨ready, again⟩
  | false =>
      rw [perform_assemble built] at failed
      rcases ran : Graph.build.perform (graphSession session) with ⟨reason | report, work⟩ <;>
        rw [ran] at failed
      · cases failed
        have sane := fit.sane tame
        have simplifies := (fit.graph.fit tame).simplifier_eq ▸ tame
        have fails : (Graph.build.perform (graphSession session)).1 = .error reason := by rw [ran]
        have itself := (Graph.Peers.refl (graphSession session)).build_error sane simplifies fails
        rw [ran] at itself
        have again := (itself.2.build_error sane simplifies fails).1
        have unbuilt : (session.withGraph work).model.graph.built = false :=
          itself.2.twin.built.trans built
        refine ⟨ready.build tame fit ran, ?_⟩
        rw [perform_assemble unbuilt, graphSession_withGraph]
        generalize Graph.build.perform work = outcome at again ⊢
        obtain ⟨answer, _⟩ := outcome
        obtain rfl : answer = .error reason := again
        rfl
      · have finished : (session.withGraph work).model.graph.built = true :=
          built_of_build tame fit ran
        obtain ⟨rfl, again⟩ := harmless _ none _ _ failed
        rw [assemble_built finished]
        exact ⟨ready.build tame fit ran, again⟩

namespace Command

/-- Commands that ask for something that the coordinates and their loops have to be known for. -/
def Asks : Command κ → Prop
  | query _ | queryNumbers _ | build | generate _ | reduce _ => True
  | _ => False

end Command

theorem ignore_error {action : Action κ α} {error : ModelError κ} :
    ((do let _ ← action : Action κ Unit).perform session).1 = .error error ↔
      (action.perform session).1 = .error error := by
  rw [perform_bind]
  rcases action.perform session with ⟨_ | _, _⟩ <;> simp [perform_pure]

theorem asking_valueOf (symbol : Symbol) : Asking (Graph.valueOf symbol : Graph.Action κ _) :=
  ⟨Graph.agrees_valueOf symbol, fun work => Graph.valueOf_evaluates work symbol⟩

theorem asking_numbersOf (symbol : Symbol) : Asking (Graph.numbersOf symbol : Graph.Action κ _) :=
  ⟨Graph.agrees_numbersOf symbol, fun work => Graph.numbersOf_evaluates work symbol⟩

/-- The equations of a graph that has been built. -/
def extract (output : CategorySet) : Action κ (EquationList κ) := do
  match (← getModel).graph.extract output .none with
  | .ok equations => return equations
  | .error error => throw (.graph error)

theorem generate_eq (output : CategorySet) : (generate output : Action κ (EquationList κ)) = (do
    declareCoordinates
    assemble >>= fun _ => extract output) := by
  rw [generate, build_eq, bind_assoc]
  rfl

theorem reduce_eq (kept : CategorySet) : (reduce kept : Action κ Graph.Reduction) = (do
    declareCoordinates
    assemble >>= fun _ => onGraph (Graph.keepOnly kept)) := by
  rw [reduce, build_eq, bind_assoc]

theorem extract_harmless {output : CategorySet} {error : ModelError κ}
    (failed : (extract output).perform session = (.error error, later)) : later = session := by
  rw [extract, perform_bind, perform_getModel] at failed
  simp only at failed
  split at failed <;> cases failed
  rfl

theorem keepOnly_harmless {kept : CategorySet} {error : ModelError κ}
    (failed : (onGraph (Graph.keepOnly kept)).perform session = (.error error, later)) :
    later = session := by
  rw [perform_onGraph, Graph.keepOnly, Graph.Action.perform_bind, Graph.Action.perform_getGraph]
    at failed
  simp only at failed
  cases reduced : (graphSession session).graph.reduce kept with
  | error reason =>
      rw [reduced] at failed
      cases failed
      rfl
  | ok outcome =>
      rw [reduced] at failed
      cases failed

theorem ignored_again {action rest : Action κ α} {error : ModelError κ}
    (unfolds : action = (do declareCoordinates; rest)) (tame : simplifier.Tame)
    (fit : Fit simplifier session) (tidy : Tidy session)
    (again : ∀ middle, Fit simplifier middle → middle.model.Ready →
      ∀ later, rest.perform middle = (.error error, later) →
        later.model.Ready ∧ (rest.perform later).1 = .error error)
    (failed : ((do let _ ← action : Action κ Unit).perform session).1 = .error error)
    (whole : ∀ coordinate ∈ session.model.independentCoordinates,
      ((do let _ ← action : Action κ Unit).perform session).2.model.HalfDeclared coordinate →
        session.model.HalfDeclared coordinate) :
    ((do let _ ← action : Action κ Unit).perform
      ((do let _ ← action : Action κ Unit).perform session).2).1 = .error error := by
  rw [ignore_error] at failed ⊢
  rw [ignore_later] at whole ⊢
  rcases ran : action.perform session with ⟨reason | done, later⟩ <;>
    rw [ran] at failed whole <;> cases failed
  rw [unfolds] at ran ⊢
  exact declared_again tame fit tidy again ran whole

variable [ScalarText κ]

/-- A command that asks for something fails again, as long as it has not left a coordinate half
declared that was not. -/
theorem fails_again (tame : simplifier.Tame) (reachable : Reachable simplifier session)
    {command : Command κ} (asks : command.Asks) {error : ModelError κ}
    (failed : (command.action.perform session).1 = .error error)
    (whole : ∀ coordinate ∈ session.model.independentCoordinates,
      (command.apply session).model.HalfDeclared coordinate →
        session.model.HalfDeclared coordinate) :
    (command.action.perform (command.apply session)).1 = .error error := by
  have fit := reachable.fit tame
  have tidy := reachable.tidy tame
  cases command with
  | query symbol =>
      exact ignored_again rfl tame fit tidy (fun middle middleFit ready later =>
        query_again (asking_valueOf symbol) tame middleFit ready) failed whole
  | queryNumbers symbol =>
      exact ignored_again rfl tame fit tidy (fun middle middleFit ready later =>
        query_again (asking_numbersOf symbol) tame middleFit ready) failed whole
  | build =>
      refine ignored_again (build_eq.trans (by rw [bind_pure])) tame fit tidy
        (fun middle middleFit ready later => assemble_again ?_ tame middleFit ready) failed whole
      exact fun _ _ _ _ nothing => by cases nothing
  | generate output =>
      refine ignored_again (generate_eq output) tame fit tidy
        (fun middle middleFit ready later => assemble_again ?_ tame middleFit ready) failed whole
      exact fun _ _ _ _ failed => ⟨extract_harmless failed, congrArg Prod.fst failed⟩
  | reduce kept =>
      refine ignored_again (reduce_eq kept) tame fit tidy
        (fun middle middleFit ready later => assemble_again ?_ tame middleFit ready) failed whole
      exact fun _ _ _ _ failed => ⟨keepOnly_harmless failed, congrArg Prod.fst failed⟩
  | _ => exact asks.elim

namespace Halved

def u : Coordinate := (Coordinate.fresh ⟨1⟩ "u").1

def s : Symbol := ⟨9, "s", .scalar, .real⟩

noncomputable def declared : Session RealNumber :=
  (Command.coordinate "u").apply ⟨ofSettings .standard Simplifier.keep, ⟨1⟩⟩

/-- The velocity of the coordinate has a definition, before the coordinate is an input. -/
noncomputable def registered : Session RealNumber :=
  (Command.register "rate" u.velocity (.ofExpr .one) (.only .state)).apply declared

noncomputable def asked : Session RealNumber := (Command.query u.position).apply registered

theorem reachable_declared : Reachable Simplifier.keep declared :=
  .step _ (.start ⟨1⟩ new_standard) trivial trivial

theorem reachable : Reachable Simplifier.keep registered :=
  .step _ reachable_declared ⟨(by decide : 2 < 4), rfl, List.forall_mem_singleton.mpr nofun⟩ trivial

end Halved

theorem fails_again_unknown :
    ((Command.query Halved.s).action.perform
      ((Command.query Halved.s).apply Halved.declared)).1 =
        .error (.graph (.unknownSymbol "s")) :=
  fails_again Simplifier.keep_tame Halved.reachable_declared
    (show (Command.query Halved.s : Command RealNumber).Asks from trivial) rfl
    (by decide)

/-- A query of a coordinate whose velocity has a definition fails, leaves its position an input, and
succeeds when it is made again. -/
theorem succeeds_on_repetition : Reachable Simplifier.keep Halved.registered ∧
    ((Command.query Halved.u.position).action.perform Halved.registered).1 =
      .error (.graph (.duplicateSymbol "u_d" (.expression "rate") .input)) ∧
    ((Command.query Halved.u.position).action.perform Halved.asked).1 = .ok () ∧
    Halved.asked.model.HalfDeclared Halved.u :=
  ⟨Halved.reachable, rfl, rfl, by decide⟩

end Mechanism.Model
