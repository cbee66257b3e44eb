import Mechanism.Proofs.Loop.Completeness
import Mechanism.Proofs.Loop.Persistence

/-!
What is done to a graph for a loop, command by command. Symbols are issued, asked for their numbers
and defined; nothing is bound, and nothing becomes an input.
-/

open Relation (ReflTransGen)

namespace Mechanism

variable {κ α β : Type} [Scalar κ]

namespace Graph

def Command.ServesLoop : Command κ → Prop
  | .issue .. | .queryNumbers _ => True
  | .register _ _ _ categories => categories = .only .loopInternal
  | _ => False

/-- The second session comes from the first one by what is done for loops. -/
def Serves : Session κ → Session κ → Prop := Leads fun _ command => command.ServesLoop

variable {first later : Session κ}

theorem Serves.supply_le (serves : Serves first later) : first.supply.next ≤ later.supply.next := by
  induction serves with
  | start => exact le_rfl
  | @step session command _ _ serves ih =>
      refine ih.trans ?_
      cases command with
      | issue name shape domain => exact Nat.le_succ _
      | register name symbol value categories =>
          rw [Command.apply, Command.action, perform_ignore, perform_register]
          split <;> exact le_rfl
      | queryNumbers symbol =>
          rw [Command.apply, Command.action, perform_ignore]
          have evaluates := numbersOf_evaluates session symbol
          generalize ((numbersOf symbol).perform session).2 = asked at evaluates
          induction evaluates with
          | refl => exact le_rfl
          | tail _ last ih =>
              obtain ⟨_⟩ := last
              exact ih
      | declareInput | define | bind | query | build | reduce => exact serves.elim

end Graph

/-- The coordinates of the joints are issued scalars, and their anchors read issued symbols only. -/
structure Chain.Regular (limit : Nat) (chain : Chain κ) : Prop where
  coordinates : ∀ joint ∈ chain.joints, ∀ symbol ∈ joint.coordinate.symbols,
    symbol.shape = .scalar ∧ symbol.number < limit
  shapes : ∀ joint ∈ chain.joints, joint.anchor.shape = .vector 3
  anchors : ∀ joint ∈ chain.joints, joint.anchor.Regular limit

theorem Chain.Regular.mono {limit more : Nat} {chain : Chain κ} (regular : chain.Regular limit)
    (le : limit ≤ more) : chain.Regular more where
  coordinates := fun joint member symbol among =>
    (regular.coordinates joint member symbol among).imp_right (·.trans_le le)
  shapes := regular.shapes
  anchors := fun joint member => (regular.anchors joint member).mono le

open Mechanism.Graph (Serves)

namespace Loop

/-- The coordinates are issued scalars, and nothing but issued symbols is read. -/
structure Geometry.Regular (limit : Nat) (geometry : Geometry κ) : Prop where
  coordinates : ∀ coordinate ∈ geometry.independent ++ geometry.dependent,
    ∀ symbol ∈ coordinate.symbols, symbol.shape = .scalar ∧ symbol.number < limit
  constraint : geometry.constraint.Regular limit
  solution : ∀ expr ∈ geometry.solution, expr.Regular limit

/-- The same, of all that is registered. -/
structure Derivation.Regular (limit : Nat) (derivation : Derivation κ) : Prop where
  geometry : derivation.geometry.Regular limit
  independent : derivation.jacobians.independent.Regular limit
  dependent : derivation.jacobians.dependent.Regular limit
  drift : derivation.drift.Regular limit

theorem Geometry.Regular.atom {limit : Nat} {geometry : Geometry κ}
    (regular : geometry.Regular limit) {coordinate : Coordinate}
    (member : coordinate ∈ geometry.independent ++ geometry.dependent) {symbol : Symbol}
    (among : symbol ∈ coordinate.symbols) : (Atom.whole symbol).Regular limit := by
  obtain ⟨scalar, issued⟩ := regular.coordinates coordinate member symbol among
  exact ⟨Atom.within_whole scalar, issued⟩

theorem Geometry.Regular.column {limit : Nat} {geometry : Geometry κ}
    (regular : geometry.Regular limit) {coordinates : List Coordinate}
    (within : ∀ coordinate ∈ coordinates, coordinate ∈ geometry.independent ++ geometry.dependent)
    (rate : Coordinate → Symbol) (among : ∀ coordinate, rate coordinate ∈ coordinate.symbols) :
    (Tensor.ofColumn (coordinates.map fun coordinate =>
      (.atom (.whole (rate coordinate)) : Expr κ))).ReadsOnly (Atom.Regular limit) :=
  Tensor.readsOnly_ofColumn (List.forall_mem_map.mpr fun coordinate member =>
    Expr.readsOnly_atom.mpr (regular.atom (within coordinate member) (among coordinate)))

theorem Geometry.Regular.derivation {limit : Nat} {derivation : Derivation κ}
    (regular : derivation.geometry.Regular limit) (sound : derivation.Sound) :
    derivation.Regular limit := by
  have constraint : derivation.geometry.constraint.ReadsOnly (Atom.Regular limit) :=
    ⟨regular.constraint.length_eq, regular.constraint.entries⟩
  have jacobians := sound.jacobians
  have drift := sound.drift
  simp only [Geometry.jacobians, Geometry.drift, bind_eq_ok] at jacobians drift
  obtain ⟨independent, first, dependent, second, same⟩ := jacobians
  obtain ⟨jacobian, made, rate, multiplied, again, remade, final⟩ := drift
  have velocities := regular.column (fun coordinate member => member) Coordinate.velocity
    (fun coordinate => by simp [Coordinate.symbols])
  have parts := Except.ok.inj same
  exact {
    geometry := regular
    independent := parts ▸ (constraint.jacobian first).regular
    dependent := parts ▸ (constraint.jacobian second).regular
    drift := ((((constraint.jacobian made).matmul velocities multiplied).jacobian remade).matmul
      velocities final).regular }

theorem Derivation.Regular.mono {limit more : Nat} {derivation : Derivation κ}
    (regular : derivation.Regular limit) (le : limit ≤ more) : derivation.Regular more where
  geometry := {
    coordinates := fun coordinate member symbol among =>
      (regular.geometry.coordinates coordinate member symbol among).imp_right (·.trans_le le)
    constraint := regular.geometry.constraint.mono le
    solution := fun expr member atom occurs => by
      obtain ⟨within, issued⟩ := regular.geometry.solution expr member atom occurs
      exact ⟨within, issued.trans_le le⟩ }
  independent := regular.independent.mono le
  dependent := regular.dependent.mono le
  drift := regular.drift.mono le

/-- What a loop is given by reads issued symbols only. -/
structure Request.Regular (limit : Nat) (request : Request κ) : Prop where
  frameA : request.frameA.position.Regular limit
  frameB : request.frameB.position.Regular limit
  expression : ∀ expression, request.topology = .explicitJoint expression → expression.Regular limit

theorem Request.Regular.mono {limit more : Nat} {request : Request κ}
    (regular : request.Regular limit) (le : limit ≤ more) : request.Regular more where
  frameA := regular.frameA.mono le
  frameB := regular.frameB.mono le
  expression := fun expression explicit atom occurs => by
    obtain ⟨within, issued⟩ := regular.expression expression explicit atom occurs
    exact ⟨within, issued.trans_le le⟩

theorem Problem.regular_given {limit : Nat} {problem : Problem κ}
    (chained : problem.chain.Regular limit)
    (regular : problem.request.Regular limit) : ∀ atom ∈ problem.given, atom.Regular limit := by
  have offsets : ∀ atom ∈ problem.offsets.flatMap Tensor.atoms, atom.Regular limit := by
    intro atom member
    obtain ⟨offset, among, reads⟩ := List.mem_flatMap.mp member
    rcases List.mem_append.mp among with anchor | frame
    · obtain ⟨joint, within, rfl⟩ := List.mem_map.mp anchor
      exact (chained.anchors joint (problem.mem_joints_of_mem_legs
        (List.mem_append.mp within))).atoms reads
    · rcases List.mem_pair.mp frame with rfl | rfl
      · exact regular.frameA.atoms reads
      · exact regular.frameB.atoms reads
  unfold Problem.given
  split
  · exact nofun
  · rename_i expression explicit
    exact regular.expression expression explicit
  · exact offsets

theorem Problem.regular_solve {limit : Nat} {problem : Problem κ} {geometry : Geometry κ}
    (chained : problem.chain.Regular limit) (regular : problem.request.Regular limit)
    (solved : problem.solve = .ok geometry) : geometry.Regular limit := by
  obtain ⟨reads, listing⟩ := Problem.reads_solve solved
  have given := Problem.regular_given chained regular
  have coordinates : ∀ coordinate ∈ geometry.independent ++ geometry.dependent,
      ∀ symbol ∈ coordinate.symbols, symbol.shape = .scalar ∧ symbol.number < limit := by
    intro coordinate member
    obtain ⟨joint, within, rfl⟩ := listing.mem_chain member
    exact chained.coordinates joint within
  have among {listed : List Coordinate}
      (within : ∀ coordinate ∈ listed, coordinate ∈ geometry.independent ++ geometry.dependent)
      {atom : Atom} (read : Among (· ∈ problem.given) listed atom) : atom.Regular limit := by
    rcases read with read | ⟨coordinate, member, rfl⟩
    · exact given atom read
    · obtain ⟨scalar, issued⟩ :=
        coordinates coordinate (within coordinate member) _ List.mem_cons_self
      exact ⟨Atom.within_whole scalar, issued⟩
  exact {
    coordinates := coordinates
    constraint := ⟨listing.length_constraint chained.shapes, fun entry member =>
      (reads.constraint entry member).mono fun _ => among fun _ inside => inside⟩
    solution := fun expr member => (reads.solution expr member).mono fun _ =>
      among fun _ => List.mem_append_left _ }

theorem Descriptor.eq_of_new [ScalarText κ] {request : Request κ} {chain : Chain κ}
    {settings : Settings κ} {descriptor : Descriptor κ}
    (made : Descriptor.new request chain settings = .ok descriptor) :
    descriptor = ⟨⟨chain, request⟩, settings, .unresolved⟩ := by
  unfold Descriptor.new at made
  split at made
  · cases made
  · split at made <;> cases made
    rfl

theorem Descriptor.regular_derive [ScalarText κ] {limit : Nat} {request : Request κ}
    {chain : Chain κ} {settings : Settings κ} {descriptor : Descriptor κ}
    (chained : chain.Regular limit)
    (regular : request.Regular limit) (made : Descriptor.new request chain settings = .ok descriptor)
    {derivation : Derivation κ} (derived : descriptor.derive.1 = .ok derivation) :
    derivation.Regular limit := by
  have follows := (derives_derive (reached_new made).consistent).follows derivation derived
  have solved := follows.solved
  rw [Descriptor.eq_of_new made] at solved
  exact (Problem.regular_solve chained regular solved).derivation follows.sound

/-- The action only serves a loop, and what it answers has the property in the session that it
leads to. -/
structure Runs (session : Graph.Session κ) (action : Action κ α)
    (known : α → Graph.Session κ → Prop) : Prop where
  serves : Serves session (action.perform session).2
  holds : ∀ value later, action.perform session = (.ok value, later) → known value later

namespace Runs

variable {session : Graph.Session κ} {known : α → Graph.Session κ → Prop}

theorem pure {value : α} (holds : known value session) :
    Runs session (Pure.pure value : Action κ α) known := by
  refine ⟨.start, ?_⟩
  rintro _ _ ⟨⟩
  exact holds

theorem throw (error : LoopError κ) : Runs session (MonadExcept.throw error : Action κ α) known :=
  ⟨.start, nofun⟩

theorem bind {action : Action κ β} {next : β → Action κ α} {middle : β → Graph.Session κ → Prop}
    (first : Runs session action middle)
    (rest : ∀ value later, session.supply.next ≤ later.supply.next → middle value later →
      Runs later (next value) known) : Runs session (action >>= next) known := by
  have serves := first.serves
  have holds := first.holds
  constructor
  · rw [Action.perform_bind]
    split <;> rename_i ran <;> rw [ran] at serves
    · exact serves.trans (rest _ _ serves.supply_le (holds _ _ ran)).serves
    · exact serves
  · intro value later done
    obtain ⟨between, after, ran, final⟩ := Action.bind_eq_ok.mp done
    rw [ran] at serves
    exact (rest between after serves.supply_le (holds _ _ ran)).holds value later final

theorem ofAlgebra {result : Except AlgebraError β} {next : β → Action κ α}
    (rest : ∀ value, result = .ok value → Runs session (next value) known) :
    Runs session (Action.ofAlgebra result >>= next) known := by
  cases result with
  | ok value =>
      have returns : Runs session (Pure.pure value : Action κ β)
          fun found later => found = value ∧ later = session := .pure ⟨rfl, rfl⟩
      exact returns.bind fun found later _ same => same.1 ▸ same.2 ▸ rest value rfl
  | error error =>
      have throws : Runs session (MonadExcept.throw (LoopError.algebra error) : Action κ β)
          fun _ _ => False := .throw _
      exact throws.bind fun _ _ _ => False.elim

theorem forM {items : List β} {action : β → Action κ Unit} {limit : Nat}
    (each : ∀ item ∈ items, ∀ session : Graph.Session κ, limit ≤ session.supply.next →
      Runs session (action item) fun _ _ => True) (start : limit ≤ session.supply.next) :
    Runs session (items.forM action) fun _ _ => True := by
  induction items generalizing session with
  | nil => exact pure trivial
  | cons head tail ih =>
      rw [List.forall_mem_cons] at each
      rw [List.forM]
      exact (each.1 session start).bind fun _ later le _ => ih each.2 (start.trans le)

theorem define {symbol : Symbol} {value : Tensor κ} (issued : symbol.number < session.supply.next)
    (regular : value.Regular session.supply.next) :
    Runs session (Loop.define symbol value) fun _ _ => True := by
  refine ⟨?_, fun _ _ _ => trivial⟩
  have step : Serves session ((Graph.Command.register symbol.name symbol value
      (.only .loopInternal)).apply session) := .single _ ⟨issued, regular⟩ rfl
  rw [Graph.Command.apply, Graph.Command.action, Graph.perform_ignore] at step
  unfold Loop.define
  rw [Action.perform_bind, Action.perform_onGraph]
  rcases ran : (Graph.register symbol.name symbol value (.only .loopInternal)).perform session
    with ⟨_ | _, later⟩ <;> rw [ran] at step <;> exact step

theorem defineNew {name : String} {rows columns : Nat} {value : Tensor κ}
    (regular : value.Regular session.supply.next) :
    Runs session (Loop.defineNew name rows columns value) fun symbol later =>
      symbol.number < later.supply.next := by
  unfold Loop.defineNew
  let issued := session.supply.fresh name (Shape.ofDimensions rows columns)
  have fresh : Runs session (Action.onGraph (Graph.Action.freshSymbol name
      (Shape.ofDimensions rows columns))) fun symbol later =>
        symbol.number < later.supply.next := by
    constructor
    · rw [Action.perform_onGraph, Graph.Action.perform_freshSymbol]
      exact .single (.issue name (Shape.ofDimensions rows columns) .real) trivial trivial
    · intro symbol later ran
      rw [Action.perform_onGraph, Graph.Action.perform_freshSymbol] at ran
      cases ran
      exact Nat.lt_succ_self _
  refine fresh.bind fun symbol later le issued => ?_
  refine (define issued (regular.mono le)).bind fun _ after further _ => ?_
  exact pure (issued.trans_le further)

theorem defineEach {column : Tensor κ} {symbols : List Symbol}
    (issued : ∀ symbol ∈ symbols, symbol.number < session.supply.next)
    (regular : column.Regular session.supply.next) :
    Runs session (Loop.defineEach column symbols) fun _ _ => True := by
  unfold Loop.defineEach
  refine forM (fun item member later (le : session.supply.next ≤ _) => ?_) le_rfl
  refine ofAlgebra fun entry found => ?_
  have among := issued _ (List.fst_mem_of_mem_zipIdx member)
  refine define (among.trans_le le) (Tensor.Regular.mono ?_ le)
  exact ⟨rfl, List.forall_mem_singleton.mpr
    (regular.entries entry (List.mem_of_getElem? (Tensor.entryAt_eq_ok.mp found).2))⟩

end Runs

section

variable {session : Graph.Session κ} {derivation : Derivation κ}

theorem regular_ofSymbol {limit : Nat} {symbol : Symbol} (issued : symbol.number < limit) :
    (Tensor.ofSymbol symbol : Tensor κ).ReadsOnly (Atom.Regular limit) :=
  Tensor.readsOnly_ofSymbol fun _ same within => ⟨within, same ▸ issued⟩

theorem Derivation.Regular.issued (regular : derivation.Regular session.supply.next)
    {rate : Coordinate → Symbol} (among : ∀ coordinate, rate coordinate ∈ coordinate.symbols) :
    ∀ symbol ∈ derivation.geometry.dependent.map rate, symbol.number < session.supply.next := by
  intro symbol member
  obtain ⟨coordinate, within, rfl⟩ := List.mem_map.mp member
  exact (regular.geometry.coordinates coordinate (List.mem_append_right _ within) _
    (among coordinate)).2

def Artifacts.Issued (limit : Nat) (artifacts : Artifacts κ) : Prop :=
  artifacts.bvu.number < limit ∧ artifacts.bPrime.number < limit

theorem runs_register (name : String) (regular : derivation.Regular session.supply.next) :
    Runs session (register name derivation) fun artifacts later =>
      artifacts.Issued later.supply.next := by
  have position (coordinate : Coordinate) : coordinate.position ∈ coordinate.symbols :=
    List.mem_cons_self
  have velocity (coordinate : Coordinate) : coordinate.velocity ∈ coordinate.symbols := by
    simp [Coordinate.symbols]
  have acceleration (coordinate : Coordinate) : coordinate.acceleration ∈ coordinate.symbols := by
    simp [Coordinate.symbols]
  unfold register
  refine (Runs.forM (fun item member later (le : session.supply.next ≤ _) => ?_) le_rfl).bind
    fun _ _ le _ => ?_
  · obtain ⟨followed, solved⟩ := List.of_mem_zip member
    refine .define ((regular.issued position _ (List.mem_map_of_mem followed)).trans_le le)
      (Tensor.Regular.mono ?_ le)
    exact ⟨rfl, List.forall_mem_singleton.mpr (regular.geometry.solution _ solved)⟩
  replace regular := regular.mono le
  refine (Runs.defineNew regular.independent).bind fun ju _ le juIssued => ?_
  replace regular := regular.mono le
  refine (Runs.defineNew regular.dependent).bind fun jv _ le jvIssued => ?_
  replace juIssued := juIssued.trans_le le
  replace regular := regular.mono le
  refine .ofAlgebra fun inverse inverted => ?_
  refine (Runs.defineNew ((regular_ofSymbol jvIssued).inverse inverted).regular).bind
    fun jvInverse _ le inverseIssued => ?_
  replace juIssued := juIssued.trans_le le
  replace regular := regular.mono le
  refine .ofAlgebra fun ratio multiplied => ?_
  have divided := (regular_ofSymbol inverseIssued).matmul (regular_ofSymbol juIssued) multiplied
  refine (Runs.defineNew divided.negate.regular).bind fun bvu _ le bvuIssued => ?_
  replace inverseIssued := inverseIssued.trans_le le
  replace regular := regular.mono le
  refine .ofAlgebra fun followed multiplied => ?_
  have drivers := regular.geometry.column
    (fun coordinate => List.mem_append_left derivation.geometry.dependent)
  have velocities := (regular_ofSymbol bvuIssued).matmul (drivers _ velocity) multiplied
  refine (Runs.defineEach (regular.issued velocity) velocities.regular).bind fun _ _ le _ => ?_
  replace inverseIssued := inverseIssued.trans_le le
  replace bvuIssued := bvuIssued.trans_le le
  replace regular := regular.mono le
  refine (Runs.defineNew regular.drift).bind fun drift _ le driftIssued => ?_
  replace inverseIssued := inverseIssued.trans_le le
  replace bvuIssued := bvuIssued.trans_le le
  replace regular := regular.mono le
  refine .ofAlgebra fun compensation multiplied => ?_
  have compensated := (regular_ofSymbol inverseIssued).matmul (regular_ofSymbol driftIssued) multiplied
  refine (Runs.defineNew compensated.negate.regular).bind fun bPrime _ le primeIssued => ?_
  replace bvuIssued := bvuIssued.trans_le le
  replace regular := regular.mono le
  refine .ofAlgebra fun driven multiplied => ?_
  refine .ofAlgebra fun total added => ?_
  have drivers := regular.geometry.column
    (fun coordinate => List.mem_append_left derivation.geometry.dependent)
  have accelerations := ((regular_ofSymbol bvuIssued).matmul (drivers _ acceleration)
    multiplied).add (regular_ofSymbol primeIssued) added
  exact (Runs.defineEach (regular.issued acceleration) accelerations.regular).bind
    fun _ _ le _ => .pure ⟨bvuIssued.trans_le le, primeIssued.trans_le le⟩

theorem serves_numbersOf (symbols : List Symbol) (known : Numbers κ) (session : Graph.Session κ) :
    Serves session ((numbersOf symbols known).run session).2 := by
  refine numbersOf_related (fun _ => .start) Graph.Leads.trans (fun session symbol => ?_) session
    symbols known
  have asked : Serves session ((Graph.Command.queryNumbers symbol).apply session) :=
    .single _ trivial trivial
  rwa [Graph.Command.apply, Graph.Command.action, Graph.perform_ignore] at asked

theorem runs_checkRegularity (name : String) (settings : Settings κ) (derivation : Derivation κ) :
    Runs session (checkRegularity name settings derivation) fun _ _ => True := by
  unfold checkRegularity
  have asks : Runs session (numbersOf derivation.parameters ∅ :
      StateM (Graph.Session κ) (Option (Numbers κ))) fun _ _ => True :=
    ⟨serves_numbersOf derivation.parameters ∅ session, fun _ _ _ => trivial⟩
  refine asks.bind fun found _ _ _ => ?_
  split
  · exact .pure trivial
  · refine .ofAlgebra fun configuration _ => ?_
    split
    · exact .throw _
    · exact .pure trivial

variable {descriptor : Descriptor κ}

theorem runs_insert (descriptor : Descriptor κ) (regular : derivation.Regular session.supply.next) :
    Runs session (descriptor.insert derivation) fun artifacts later =>
      artifacts.Issued later.supply.next := by
  unfold Descriptor.insert
  split
  · exact (runs_checkRegularity _ _ _).bind fun _ _ le _ => runs_register _ (regular.mono le)
  · exact runs_register _ regular

theorem serves_close (regular : ∀ derivation, descriptor.derive.1 = .ok derivation →
    derivation.Regular session.supply.next) : Serves session (descriptor.close session).session := by
  unfold Descriptor.close
  split
  · exact .start
  · generalize descriptor.derive = stage at regular
    obtain ⟨_ | derivation, later⟩ := stage
    · exact .start
    · have serves := (runs_insert later (regular derivation rfl)).serves
      unfold Action.perform at serves
      simp only
      split <;> rename_i ran <;> rw [ran] at serves <;> exact serves

theorem settings_derive (descriptor : Descriptor κ) :
    descriptor.derive.2.settings = descriptor.settings := by
  have twice (descriptor : Descriptor κ) (geometry : Geometry κ) (jacobians : Jacobians κ) :
      (descriptor.linearizeTwice geometry jacobians).2.settings = descriptor.settings := by
    unfold Descriptor.linearizeTwice
    split <;> rfl
  have once (descriptor : Descriptor κ) (geometry : Geometry κ) :
      (descriptor.linearizeOnce geometry).2.settings = descriptor.settings := by
    unfold Descriptor.linearizeOnce
    split
    · rfl
    · exact twice ..
  unfold Descriptor.derive
  split
  · split
    · rfl
    · exact once ..
  · exact once ..
  · exact twice ..
  · rfl
  · rfl

theorem Descriptor.close_unregistered (unregistered : descriptor.artifacts? = none)
    (session : Graph.Session κ) :
    descriptor.close session = match descriptor.derive with
      | (.error error, later) => ⟨.error error, later, session⟩
      | (.ok derivation, later) =>
        match (later.insert derivation).perform session with
        | (.error error, session) => ⟨.error error, later, session⟩
        | (.ok artifacts, session) =>
          ⟨.ok artifacts, later.enter (.registered derivation artifacts), session⟩ := by
  unfold Descriptor.close
  split
  · rename_i progress
    simp [Descriptor.artifacts?, progress] at unregistered
  · rfl

structure Descriptor.Enters (descriptor : Descriptor κ) (session : Graph.Session κ)
    (derivation : Derivation κ) (artifacts : Artifacts κ) : Prop where
  derived : descriptor.derive.1 = .ok derivation
  follows : derivation.Follows descriptor.problem
  registered : (descriptor.close session).descriptor.progress = .registered derivation artifacts
  settings : (descriptor.close session).descriptor.settings = descriptor.settings
  name : (descriptor.close session).descriptor.name = descriptor.name
  inserted : (descriptor.derive.2.insert derivation).perform session =
    (.ok artifacts, (descriptor.close session).session)

theorem enters_of_close {artifacts : Artifacts κ} (consistent : descriptor.Consistent)
    (unregistered : descriptor.artifacts? = none)
    (closed : (descriptor.close session).outcome = .ok artifacts) :
    ∃ derivation, descriptor.Enters session derivation artifacts := by
  have derives := Descriptor.derives_derive consistent
  have settings := settings_derive descriptor
  rcases stage : descriptor.derive with ⟨_ | derivation, later⟩
  all_goals
    rw [stage] at derives settings
    have unfolded := Descriptor.close_unregistered unregistered session
    rw [stage] at unfolded
    simp only at unfolded
  · rw [unfolded] at closed
    cases closed
  · rcases ran : (later.insert derivation).perform session with ⟨_ | made, final⟩
    all_goals rw [ran] at unfolded
    · rw [unfolded] at closed
      cases closed
    · rw [unfolded] at closed
      cases closed
      refine ⟨derivation, ⟨by rw [stage], derives.follows _ rfl, by rw [unfolded]; rfl, ?_, ?_, ?_⟩⟩
      · rw [unfolded]
        exact settings
      · rw [unfolded]
        exact congrArg (·.request.name) derives.problem_eq
      · rw [stage, unfolded]
        exact ran

theorem serves_verify (descriptor : Descriptor κ) (session : Graph.Session κ) :
    Serves session (descriptor.verify.perform session).2 := by
  unfold Descriptor.verify
  split
  · exact (runs_checkRegularity _ _ _).serves
  · exact .start

end

end Loop

end Mechanism
