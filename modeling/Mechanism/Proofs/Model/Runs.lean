import Mechanism.Proofs.Graph.Revisions
import Mechanism.Proofs.Model.Session

/-!
What can be asked of a model, and the runs that come of it. Everything that is asked comes to steps
of the model, to a loop that is closed, or to a check of all loops and a query.
-/

namespace Mechanism.Model

open Mechanism.Model.Action

variable {κ α β : Type} [Scalar κ] {simplifier : Simplifier κ} {session later : Session κ}

theorem input_later (session : Session κ) (name : String) (shape : Shape)
    (categories : CategorySet) (initial : Option (Tensor κ)) :
    ((do
      let symbol ← onGraph (Graph.Action.freshSymbol name shape)
      onGraph (Graph.declareInput symbol categories initial)
      return symbol : Action κ Symbol).perform session).2 =
    (session.give (.issue name shape .real)).give
      (.declareInput (session.supply.fresh name shape).1 categories initial) := by
  rw [perform_bind, perform_onGraph, Graph.Action.perform_freshSymbol]
  simp only
  rw [bind_pure_later, onGraph_later]
  rfl

theorem steps_input (session : Session κ) (name : String) (shape : Shape)
    (categories : CategorySet) (initial : Option (Tensor κ)) :
    Steps session ((do
      let symbol ← onGraph (Graph.Action.freshSymbol name shape)
      onGraph (Graph.declareInput symbol categories initial)
      return symbol : Action κ Symbol).perform session).2 := by
  rw [input_later]
  exact .single (.input name shape categories initial)

theorem steps_addCoordinate (session : Session κ) (name : String) :
    Steps session ((addCoordinate name).perform session).2 := by
  unfold addCoordinate
  rw [perform_bind, perform_get]
  simp only
  split
  · exact .refl
  · rename_i new
    exact .single (.coordinate (by simpa using new))

theorem steps_addJoint {joint : Joint κ} (regular : joint.anchor.Regular session.supply.next) :
    Steps session ((addJoint joint).perform session).2 := by
  unfold addJoint
  rw [perform_bind, perform_getModel]
  simp only
  split
  · exact .refl
  · rename_i known found
    split
    · exact .refl
    · rename_i same
      simp only [ne_eq, not_not] at same
      subst same
      cases added : session.model.chain.add joint with
      | error error => exact .refl
      | ok made => exact .single (.joint found regular added)

theorem steps_registerExpression (name : String) {symbol : Symbol} {value : Tensor κ}
    (categories : CategorySet) (issued : symbol.number < session.supply.next)
    (regular : value.Regular session.supply.next) :
    Steps session ((registerExpression name symbol value categories).perform session).2 := by
  have steps := steps_give session (.register name symbol value categories) trivial ⟨issued, regular⟩
  rw [Session.give, Graph.Command.apply, Graph.Command.action, Graph.perform_ignore] at steps
  rwa [registerExpression, onGraph_later]

theorem steps_define (name : String) {value : Tensor κ} (categories : CategorySet)
    (regular : value.Regular session.supply.next) :
    Steps session ((define name value categories).perform session).2 := by
  have steps := steps_give session (.define name value categories) trivial regular
  rw [Session.give, Graph.Command.apply, Graph.Command.action, Graph.perform_ignore] at steps
  rwa [define, onGraph_later]

theorem steps_changeValue (session : Session κ) (symbol : Symbol) (value : Tensor κ) :
    Steps session ((changeValue symbol value).perform session).2 := by
  unfold changeValue
  rw [perform_bind, perform_getModel]
  simp only
  split
  · split
    · exact .refl
    · rename_i scalar
      exact .single (.hold symbol (by simpa [Shape.isScalar] using scalar))
  · rw [onGraph_later]
    exact steps_give session (.bind symbol value) trivial trivial

structure Prepares (before after : Session κ) : Prop where
  steps : Steps before after
  declares : ∃ symbols, Declares symbols before after

namespace Prepares

variable {first second third : Session κ}

theorem refl (session : Session κ) : Prepares session session := ⟨.refl, [], .refl [] session⟩

theorem trans (left : Prepares first second) (right : Prepares second third) :
    Prepares first third := by
  obtain ⟨symbols, declared⟩ := left.declares
  obtain ⟨more, further⟩ := right.declares
  exact ⟨left.steps.trans right.steps, symbols ++ more,
    (declared.mono fun _ => List.mem_append_left _).trans
      (further.mono fun _ => List.mem_append_right _)⟩

theorem parts (prepares : Prepares first second) : SameParts first.model second.model := by
  obtain ⟨_, declares⟩ := prepares.declares
  exact declares.parts

theorem fit (prepares : Prepares first second) (tame : simplifier.Tame)
    (fit : Fit simplifier first) : Fit simplifier second :=
  prepares.steps.fit tame fit

theorem isClosed_eq (prepares : Prepares first second) (coordinate : Coordinate) :
    second.model.isClosed coordinate = first.model.isClosed coordinate := by
  rw [isClosed, isClosed, prepares.parts.closedBy]

theorem graph_later (prepares : Prepares first second) (tame : simplifier.Tame)
    (fit : Fit simplifier first) : Graph.Later (graphSession first) (graphSession second) :=
  (prepares.steps.advances tame fit).later tame fit.graph

theorem hasRole (prepares : Prepares first second) (tame : simplifier.Tame)
    (fit : Fit simplifier first) {coordinate : Coordinate}
    (role : first.model.HasRole coordinate) : second.model.HasRole coordinate :=
  role.imp (prepares.isClosed_eq coordinate).trans ((prepares.graph_later tame fit).inputs _)

/-- Several coordinates are dealt with one after the other, and what has been achieved for one of
them lasts. -/
theorem forM {items : List Coordinate} {action : Coordinate → Action κ Unit}
    (each : ∀ item ∈ items, ∀ middle, Prepares session middle →
      Prepares middle ((action item).perform middle).2 ∧
        ∀ later, (action item).perform middle = (.ok ⟨⟩, later) → later.model.HasRole item)
    (tame : simplifier.Tame) (fit : Fit simplifier session) :
    Prepares session ((items.forM action).perform session).2 ∧
      ∀ later, (items.forM action).perform session = (.ok ⟨⟩, later) →
        ∀ item ∈ items, later.model.HasRole item := by
  suffices from_ : ∀ middle, Prepares session middle →
      Prepares middle ((items.forM action).perform middle).2 ∧
        ∀ later, (items.forM action).perform middle = (.ok ⟨⟩, later) →
          ∀ item ∈ items, later.model.HasRole item from from_ session (.refl session)
  intro middle reached
  induction items generalizing middle with
  | nil => exact ⟨.refl middle, fun _ _ _ member => absurd member List.not_mem_nil⟩
  | cons head tail ih =>
      rw [List.forall_mem_cons] at each
      obtain ⟨first, role⟩ := each.1 middle reached
      rw [List.forM, perform_bind]
      split <;> rename_i ran <;> rw [ran] at first
      · rename_i between
        obtain ⟨rest, roles⟩ := ih each.2 between (reached.trans first)
        refine ⟨first.trans rest, fun later done => List.forall_mem_cons.mpr ⟨?_, roles later done⟩⟩
        rw [done] at rest
        exact rest.hasRole tame ((reached.trans first).fit tame fit) (role between ran)
      · exact ⟨first, fun _ done => by cases done⟩

end Prepares

theorem isInput_of_declareRate {symbol : Symbol} {category : Category}
    (declared : (declareRate symbol category).perform session = (.ok ⟨⟩, later)) :
    later.model.graph.isInput symbol = true := by
  rw [declareRate, perform_bind, perform_getModel] at declared
  simp only at declared
  rw [perform_bind, perform_modifyModel] at declared
  obtain ⟨work, ran, rfl⟩ := Action.onGraph_eq_ok.mp declared
  exact Graph.isInput_of_declareInput ran

theorem declared_rate {symbol : Symbol} {category : Category} {answer : Except (ModelError κ) Unit}
    (declared : (declareRate symbol category).perform session = (answer, later))
    (issued : symbol.number < session.supply.next) (tame : simplifier.Tame)
    (fit : Fit simplifier session) :
    Fit simplifier later ∧ session.supply.next ≤ later.supply.next ∧
      ∀ other, session.model.graph.isInput other = true →
        later.model.graph.isInput other = true := by
  have declares := declareRate_declares issued category
  rw [declared] at declares
  have advances := declares.advances
  exact ⟨declares.fit tame fit, advances.supply_le tame fit.graph,
    (advances.later tame fit.graph).inputs⟩

theorem prepares_declareCoordinate {coordinate : Coordinate}
    (known : session.model.coordinates.find? coordinate.name = some coordinate)
    (free : session.model.isClosed coordinate = false) (tame : simplifier.Tame)
    (fit : Fit simplifier session) :
    Prepares session ((declareCoordinate coordinate).perform session).2 ∧
      ∀ later, (declareCoordinate coordinate).perform session = (.ok ⟨⟩, later) →
        later.model.HasRole coordinate := by
  have declares := declareCoordinate_declares
    (fun symbol member => (fit.symbols known symbol member).2) tame fit
  cases input : session.model.graph.isInput coordinate.position with
  | true =>
      have same : (declareCoordinate coordinate).perform session = (.ok ⟨⟩, session) := by
        rw [declareCoordinate, perform_bind, perform_getModel]
        simp only [input, if_true]
        rfl
      rw [same]
      refine ⟨.refl session, ?_⟩
      rintro _ ⟨⟩
      exact .inr input
  | false =>
      refine ⟨⟨.single (.declare known free input), _, declares⟩, fun later done => .inr ?_⟩
      rw [declareCoordinate, perform_bind, perform_getModel] at done
      simp only [input, Bool.false_eq_true, if_false] at done
      obtain ⟨_, first, position, rest⟩ := Action.bind_eq_ok.mp done
      have position_input := isInput_of_declareRate position
      have issued (symbol : Symbol) (member : symbol ∈ coordinate.symbols) :=
        (fit.symbols known symbol member).2
      obtain ⟨fit, le, _⟩ := declared_rate position (issued _ (by simp [Coordinate.symbols])) tame fit
      obtain ⟨_, second, velocity, acceleration⟩ := Action.bind_eq_ok.mp rest
      obtain ⟨fit, more, kept⟩ := declared_rate velocity
        ((issued _ (by simp [Coordinate.symbols])).trans_le le) tame fit
      obtain ⟨_, _, still⟩ := declared_rate acceleration
        ((issued _ (by simp [Coordinate.symbols])).trans_le (le.trans more)) tame fit
      exact still _ (kept _ position_input)

theorem isClosed_of_independent {coordinate : Coordinate}
    (member : coordinate ∈ session.model.independentCoordinates) :
    session.model.isClosed coordinate = false := by
  simpa using (List.mem_filter.mp member).2

theorem Fit.known (fit : Fit simplifier session) {coordinate : Coordinate}
    (member : coordinate ∈ session.model.allCoordinates) :
    session.model.coordinates.find? coordinate.name = some coordinate := by
  obtain ⟨entry, among, rfl⟩ := List.mem_map.mp member
  have known := fit.listed entry among
  rwa [fit.name_eq known]

theorem prepares_forM_declareCoordinate {coordinates : List Coordinate}
    (known : ∀ coordinate ∈ coordinates,
      session.model.coordinates.find? coordinate.name = some coordinate ∧
        session.model.isClosed coordinate = false)
    (tame : simplifier.Tame) (fit : Fit simplifier session) :
    Prepares session ((coordinates.forM declareCoordinate).perform session).2 ∧
      ∀ later, (coordinates.forM declareCoordinate).perform session = (.ok ⟨⟩, later) →
        ∀ coordinate ∈ coordinates, later.model.HasRole coordinate := by
  refine Prepares.forM (fun coordinate member middle reached => ?_) tame fit
  obtain ⟨found, free⟩ := known coordinate member
  refine prepares_declareCoordinate ?_ ?_ tame (reached.fit tame fit)
  · rwa [reached.parts.coordinates]
  · rwa [reached.isClosed_eq]

theorem Fit.open (fit : Fit simplifier session) : ∀ coordinate ∈ session.model.independentCoordinates,
    session.model.coordinates.find? coordinate.name = some coordinate ∧
      session.model.isClosed coordinate = false :=
  fun _ member => ⟨fit.known (List.mem_filter.mp member).1, isClosed_of_independent member⟩

theorem prepares_declareCoordinates (tame : simplifier.Tame) (fit : Fit simplifier session) :
    Prepares session (declareCoordinates.perform session).2 ∧
      ∀ later, declareCoordinates.perform session = (.ok ⟨⟩, later) →
        ∀ coordinate ∈ later.model.allCoordinates, later.model.HasRole coordinate := by
  unfold declareCoordinates
  rw [perform_bind, perform_getModel]
  simp only
  obtain ⟨prepares, roles⟩ := prepares_forM_declareCoordinate fit.open tame fit
  refine ⟨prepares, fun later done coordinate member => ?_⟩
  rw [done] at prepares
  rw [allCoordinates, prepares.parts.coordinates] at member
  cases closed : session.model.isClosed coordinate with
  | true => exact .inl ((prepares.isClosed_eq coordinate).trans closed)
  | false => exact roles later done coordinate (List.mem_filter.mpr ⟨member, by simp [closed]⟩)

theorem perform_closeLoop (descriptor : Loop.Descriptor κ) :
    (closeLoop descriptor).perform session =
      match (descriptor.close (graphSession session)).outcome with
      | .ok artifacts =>
        (.ok artifacts, session.enclose (descriptor.close (graphSession session)) artifacts)
      | .error error =>
        (.error (.loop error), session.withGraph (descriptor.close (graphSession session)).session) := by
  unfold closeLoop
  rw [perform_bind, perform_get]
  simp only
  rw [perform_bind, perform_setGraphSession]
  simp only
  cases (descriptor.close (graphSession session)).outcome <;> rfl

/-- The coordinate moves one of the joints. -/
def MovesOneOf (model : Model κ) (ids : List JointId) (coordinate : Coordinate) : Prop :=
  ∃ id ∈ ids, ∃ joint, model.chain.joint? id = some joint ∧ joint.coordinate = coordinate

theorem perform_jointCoordinates (session : Session κ) (ids : List JointId) :
    ∃ answer, (jointCoordinates ids).perform session = (answer, session) ∧
      ∀ coordinates, answer = .ok coordinates →
        (∀ coordinate ∈ coordinates, session.model.MovesOneOf ids coordinate) ∧
        ∀ id ∈ ids, ∀ joint, session.model.chain.joint? id = some joint →
          joint.coordinate ∈ coordinates := by
  unfold jointCoordinates
  rw [perform_bind, perform_getModel]
  simp only
  induction ids with
  | nil =>
      refine ⟨.ok [], rfl, ?_⟩
      rintro _ ⟨⟩
      exact ⟨List.forall_mem_nil _, List.forall_mem_nil _⟩
  | cons head tail ih =>
      obtain ⟨answer, ran, found⟩ := ih
      rw [List.mapM_cons, perform_bind]
      cases joint : session.model.chain.joint? head with
      | none => exact ⟨_, rfl, fun _ done => by cases done⟩
      | some joint =>
          simp only [perform_pure, perform_bind, ran]
          cases answer with
          | error error => exact ⟨_, rfl, fun _ done => by cases done⟩
          | ok coordinates =>
              refine ⟨_, rfl, ?_⟩
              rintro _ ⟨⟩
              obtain ⟨among, all⟩ := found coordinates rfl
              refine ⟨List.forall_mem_cons.mpr ⟨⟨head, List.mem_cons_self, _, joint, rfl⟩,
                fun coordinate member => ?_⟩, ?_⟩
              · obtain ⟨id, later, rest⟩ := among coordinate member
                exact ⟨id, List.mem_cons_of_mem _ later, rest⟩
              · refine List.forall_mem_cons.mpr ⟨fun other same => ?_, fun id member other found =>
                  List.mem_cons_of_mem _ (all id member other found)⟩
                rw [joint, Option.some.injEq] at same
                exact same ▸ List.mem_cons_self

theorem Fit.moved (fit : Fit simplifier session) {ids : List JointId} {coordinate : Coordinate}
    (moves : session.model.MovesOneOf ids coordinate) :
    session.model.coordinates.find? coordinate.name = some coordinate := by
  obtain ⟨id, _, joint, found, rfl⟩ := moves
  exact (fit.joints joint (List.mem_of_getElem? found)).1

theorem perform_checkFollowers (session : Session κ) (coordinates : List Coordinate) :
    ∃ answer, (coordinates.forM checkFollower).perform session = (answer, session) ∧
      (answer = .ok ⟨⟩ → ∀ coordinate ∈ coordinates,
        session.model.isClosed coordinate = false) := by
  induction coordinates with
  | nil => exact ⟨.ok ⟨⟩, rfl, fun _ => List.forall_mem_nil _⟩
  | cons head tail ih =>
      obtain ⟨answer, ran, free⟩ := ih
      rw [List.forM, perform_bind, checkFollower, perform_bind, perform_getModel]
      simp only
      cases conflict : session.model.conflict? head with
      | some conflict => exact ⟨_, rfl, fun done => by cases done⟩
      | none =>
          simp only [perform_pure, ran]
          refine ⟨answer, rfl, fun done => List.forall_mem_cons.mpr ⟨?_, free done⟩⟩
          rw [isClosed, Table.contains, Option.isSome_eq_false_iff, Option.isNone_iff_eq_none]
          unfold conflict? at conflict
          split at conflict
          · cases conflict
          · assumption

theorem prepares_declareDrivers {drivers : List Coordinate}
    (known : ∀ coordinate ∈ drivers,
      session.model.coordinates.find? coordinate.name = some coordinate)
    (tame : simplifier.Tame) (fit : Fit simplifier session) :
    Prepares session ((drivers.forM declareDriver).perform session).2 ∧
      ∀ later, (drivers.forM declareDriver).perform session = (.ok ⟨⟩, later) →
        ∀ coordinate ∈ drivers, later.model.HasRole coordinate := by
  refine Prepares.forM (fun coordinate member middle reached => ?_) tame fit
  rw [declareDriver, perform_bind, perform_getModel]
  simp only
  cases closed : middle.model.isClosed coordinate with
  | true =>
      refine ⟨.refl middle, ?_⟩
      rintro _ ⟨⟩
      exact .inl closed
  | false =>
      refine prepares_declareCoordinate ?_ closed tame (reached.fit tame fit)
      rw [reached.parts.coordinates]
      exact known coordinate member

section

variable [ScalarText κ]

def arrangeLoop (request : Loop.Request κ) : Action κ (Loop.Descriptor κ) := do
  if (← getModel).loops.contains request.name then throw (.duplicateLoop request.name)
  let independent ← jointCoordinates request.independent
  let dependent ← jointCoordinates request.dependent
  dependent.forM checkFollower
  independent.forM declareDriver
  let model ← getModel
  ofLoop (Loop.Descriptor.new request model.chain model.settings.loops)

theorem registerLoop_eq (request : Loop.Request κ) :
    registerLoop request = arrangeLoop request >>= closeLoop := by
  unfold registerLoop arrangeLoop
  rw [bind_assoc]
  congr 1
  funext model
  split
  · rfl
  · simp only [bind_assoc]

theorem perform_arrangeLoop {request : Loop.Request κ} {drivers followers : List Coordinate}
    (new : session.model.loops.contains request.name = false)
    (driving : (jointCoordinates request.independent).perform session = (.ok drivers, session))
    (following : (jointCoordinates request.dependent).perform session = (.ok followers, session))
    (free : (followers.forM checkFollower).perform session = (.ok ⟨⟩, session))
    (ran : (drivers.forM declareDriver).perform session = (.ok ⟨⟩, later)) :
    (arrangeLoop request).perform session = (ofLoop (Loop.Descriptor.new request later.model.chain
      later.model.settings.loops)).perform later := by
  unfold arrangeLoop
  rw [perform_bind, perform_getModel]
  simp only [new, Bool.false_eq_true, if_false]
  rw [perform_bind, driving]
  simp only
  rw [perform_bind, following]
  simp only
  rw [perform_bind, free]
  simp only
  rw [perform_bind, ran]
  simp only
  rw [perform_bind, perform_getModel]

/-- How it goes before a loop is brought into the graph: its drivers are declared, and then it is
put together. -/
inductive Arranges (session : Session κ) (request : Loop.Request κ) :
    Except (ModelError κ) (Loop.Descriptor κ) × Session κ → Prop where
  | refused (error : ModelError κ) : Arranges session request (.error error, session)
  | undeclared {drivers : List Coordinate} {error : ModelError κ} {later : Session κ}
      (driving : ∀ coordinate ∈ drivers, session.model.MovesOneOf request.independent coordinate)
      (ran : (drivers.forM declareDriver).perform session = (.error error, later)) :
      Arranges session request (.error error, later)
  | unmade {drivers : List Coordinate} {error : LoopError κ} {later : Session κ}
      (driving : ∀ coordinate ∈ drivers, session.model.MovesOneOf request.independent coordinate)
      (ran : (drivers.forM declareDriver).perform session = (.ok ⟨⟩, later)) :
      Arranges session request (.error (.loop error), later)
  | made {drivers : List Coordinate} {later : Session κ} {descriptor : Loop.Descriptor κ}
      (driving : ∀ coordinate ∈ drivers, session.model.MovesOneOf request.independent coordinate)
      (driven : ∀ id ∈ request.independent, ∀ joint,
        session.model.chain.joint? id = some joint → joint.coordinate ∈ drivers)
      (new : session.model.loops.contains request.name = false)
      (free : ∀ id ∈ request.dependent, ∀ joint, session.model.chain.joint? id = some joint →
        session.model.isClosed joint.coordinate = false)
      (ran : (drivers.forM declareDriver).perform session = (.ok ⟨⟩, later))
      (made : Loop.Descriptor.new request later.model.chain later.model.settings.loops =
        .ok descriptor) :
      Arranges session request (.ok descriptor, later)

theorem arrangeLoop_arranges (session : Session κ) (request : Loop.Request κ) :
    Arranges session request ((arrangeLoop request).perform session) := by
  obtain ⟨drivers, asked, driving⟩ := perform_jointCoordinates session request.independent
  obtain ⟨followers, again, following⟩ := perform_jointCoordinates session request.dependent
  unfold arrangeLoop
  rw [perform_bind, perform_getModel]
  simp only
  split
  · exact .refused _
  rename_i new
  rw [perform_bind, asked]
  cases drivers with
  | error error => exact .refused error
  | ok drivers =>
  obtain ⟨driving, driven⟩ := driving drivers rfl
  simp only
  rw [perform_bind, again]
  cases followers with
  | error error => exact .refused error
  | ok followers =>
  simp only
  obtain ⟨free, checked, isFree⟩ := perform_checkFollowers session followers
  rw [perform_bind, checked]
  cases free with
  | error error => exact .refused error
  | ok done =>
  simp only
  rw [perform_bind]
  rcases ran : (drivers.forM declareDriver).perform session with ⟨error | done, later⟩
  · exact .undeclared driving ran
  simp only
  rw [perform_bind, perform_getModel]
  simp only
  cases made : Loop.Descriptor.new request later.model.chain later.model.settings.loops with
  | error error => exact .unmade driving ran
  | ok descriptor =>
      refine .made driving driven (by simpa using new) (fun id member joint found => ?_) ran made
      exact isFree rfl _ ((following followers rfl).2 id member joint found)

theorem Arranges.prepares {request : Loop.Request κ}
    {outcome : Except (ModelError κ) (Loop.Descriptor κ) × Session κ}
    (arranges : Arranges session request outcome) (tame : simplifier.Tame)
    (fit : Fit simplifier session) : Prepares session outcome.2 := by
  have prepares {drivers : List Coordinate}
      (driving : ∀ coordinate ∈ drivers, session.model.MovesOneOf request.independent coordinate) :=
    (prepares_declareDrivers (fun coordinate member => fit.moved (driving coordinate member))
      tame fit).1
  cases arranges with
  | refused => exact .refl session
  | undeclared driving ran | unmade driving ran | made driving _ _ _ ran =>
      have prepared := prepares driving
      rwa [ran] at prepared

/-- When a loop is to be closed, its drivers are made inputs. Either the rest comes to steps, or the
loop is closed. -/
theorem registerLoop_cases {request : Loop.Request κ}
    (regular : request.Regular session.supply.next) (tame : simplifier.Tame)
    (fit : Fit simplifier session) :
    let middle := ((arrangeLoop request).perform session).2
    Prepares session middle ∧ (Steps middle ((registerLoop request).perform session).2 ∨
      ∃ descriptor artifacts, Closes middle request descriptor artifacts ∧
        ((registerLoop request).perform session).2 =
          middle.enclose (descriptor.close (graphSession middle)) artifacts) := by
  have arranges := arrangeLoop_arranges session request
  have prepares := arranges.prepares tame fit
  rw [registerLoop_eq, perform_bind]
  generalize (arrangeLoop request).perform session = outcome at arranges prepares
  refine ⟨prepares, ?_⟩
  obtain ⟨error | descriptor, middle⟩ := outcome
  · exact .inl .refl
  cases arranges with
  | made driving driven new free ran made =>
      have parts := prepares.parts
      have still := regular.mono ((prepares.steps.advances tame fit).supply_le tame fit.graph)
      simp only [perform_closeLoop]
      cases outcome : (descriptor.close (graphSession middle)).outcome with
      | error error =>
          have serves : Graph.Serves (graphSession middle)
              (descriptor.close (graphSession middle)).session := Loop.serves_close fun _ derived =>
            Loop.Descriptor.regular_derive (prepares.fit tame fit).chain still made derived
          exact .inl (steps_work serves.works)
      | ok artifacts =>
          have roles := (prepares_declareDrivers
            (fun coordinate member => fit.moved (driving coordinate member)) tame fit).2 middle ran
          refine .inr ⟨descriptor, artifacts, ?_, rfl⟩
          refine ⟨still, parts.loops ▸ new, ?_, ?_, made, outcome⟩
          · intro id member joint found
            rw [parts.chain] at found
            exact roles _ (driven id member joint found)
          · intro id member joint found
            rw [parts.chain] at found
            rw [prepares.isClosed_eq]
            exact free id member joint found

end

theorem perform_onLoop_bind (first : Loop.Action κ β) (rest : β → Loop.Action κ α) :
    (onLoop (first >>= rest)).perform session =
      (onLoop first >>= fun value => onLoop (rest value)).perform session := by
  rw [perform_bind, perform_onLoop, perform_onLoop, Loop.Action.perform_bind]
  rcases first.perform (graphSession session) with ⟨_ | value, work⟩
  · rfl
  · simp only
    rw [perform_onLoop, graphSession_withGraph]
    rfl

theorem perform_forM_onLoop (entries : List (String × Loop.Descriptor κ)) :
    (entries.forM fun (_, descriptor) => onLoop descriptor.verify).perform session =
      (onLoop (entries.forM fun entry => entry.2.verify)).perform session := by
  induction entries generalizing session with
  | nil => rfl
  | cons head tail ih =>
      obtain ⟨name, descriptor⟩ := head
      rw [List.forM, List.forM, perform_onLoop_bind, perform_bind, perform_bind]
      simp only
      rcases (onLoop descriptor.verify).perform session with ⟨error | done, later⟩
      · rfl
      · exact ih

/-- The loops are known to be regular at the present bindings, or have been found so now. -/
inductive Verified : Session κ → Session κ → Prop where
  | known {session : Session κ}
      (same : session.model.checkedRevision = some session.model.graph.store.revision) :
      Verified session session
  | found {session : Session κ} {work : Graph.Session κ} (checks : Checks session work) :
      Verified session (session.markChecked work)

theorem verifyLoops_known
    (same : session.model.checkedRevision = some session.model.graph.store.revision) :
    verifyLoops.perform session = (.ok ⟨⟩, session) := by
  rw [verifyLoops, perform_bind, perform_getModel]
  simp only [same, if_true]
  rfl

theorem verifyLoops_due
    (due : session.model.checkedRevision ≠ some session.model.graph.store.revision) :
    verifyLoops.perform session =
      match (session.model.loops.entries.forM fun entry => entry.2.verify).perform
        (graphSession session) with
      | (.ok _, work) => (.ok ⟨⟩, session.markChecked work)
      | (.error error, work) => (.error (.loop error), session.withGraph work) := by
  rw [verifyLoops, perform_bind, perform_getModel]
  simp only [due, if_false]
  rw [perform_bind, perform_forM_onLoop, perform_onLoop]
  rcases (session.model.loops.entries.forM fun entry => entry.2.verify).perform
    (graphSession session) with ⟨error | done, work⟩ <;> rfl

theorem verifyLoops_cases (session : Session κ) :
    (∃ error later, verifyLoops.perform session = (.error error, later) ∧ Steps session later) ∨
      ∃ later, verifyLoops.perform session = (.ok ⟨⟩, later) ∧ Verified session later := by
  by_cases due : session.model.checkedRevision = some session.model.graph.store.revision
  · exact .inr ⟨session, verifyLoops_known due, .known due⟩
  · have serves := serves_forM_verify session.model.loops.entries (graphSession session)
    rw [verifyLoops_due due]
    rcases ran : (session.model.loops.entries.forM fun entry => entry.2.verify).perform
      (graphSession session) with ⟨error | done, work⟩
    · rw [ran] at serves
      exact .inl ⟨.loop error, session.withGraph work, rfl, steps_work serves.works⟩
    · exact .inr ⟨session.markChecked work, rfl, .found ⟨due, ran⟩⟩

/-- A query after all coordinates have got roles and all loops are known to be regular. -/
inductive Queries : Session κ → Session κ → Prop where
  | mk {session middle next : Session κ} {work : Graph.Session κ}
      (prepares : Prepares session middle) (verified : Verified middle next)
      (works : Graph.Works (graphSession next) work) : Queries session (next.withGraph work)

theorem query_cases {query : Graph.Action κ α}
    (works : ∀ work, Graph.Works work (query.perform work).2) (tame : simplifier.Tame)
    (fit : Fit simplifier session) :
    let asked := (do declareCoordinates; verifyLoops; onGraph query : Action κ α).perform session
    Steps session asked.2 ∧ (∃ error, asked.1 = .error error) ∨ Queries session asked.2 := by
  have prepares := (prepares_declareCoordinates tame fit).1
  simp only
  rw [perform_bind]
  rcases ran : declareCoordinates.perform session with ⟨error | done, middle⟩
  all_goals rw [ran] at prepares
  · exact .inl ⟨prepares.steps, _, rfl⟩
  · simp only
    rw [perform_bind]
    rcases verifyLoops_cases middle with ⟨error, later, fails, steps⟩ | ⟨later, succeeds, verified⟩
    · rw [fails]
      exact .inl ⟨prepares.steps.trans steps, _, rfl⟩
    · rw [succeeds]
      simp only
      rw [onGraph_later]
      exact .inr (.mk prepares verified (works _))

end Mechanism.Model
