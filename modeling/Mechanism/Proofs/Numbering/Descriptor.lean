import Mechanism.Loop.Descriptor
import Mechanism.Proofs.Loop.Progress
import Mechanism.Proofs.Numbering.Loop
import Mechanism.Proofs.Numbering.Session

/-!
Loops on their way into a graph, with their numbers moved. They are registered under moved symbols
of the same names, and stand in a singular configuration or not, alike.
-/

namespace Mechanism.Loop

variable {κ : Type} [Scalar κ] {offset : Nat}

instance : Numbered (Artifacts κ) := ⟨fun offset artifacts =>
  { independent := artifacts.independent.map (shift offset)
    dependent := artifacts.dependent.map (shift offset)
    constraint := shift offset artifacts.constraint
    ju := shift offset artifacts.ju
    jv := shift offset artifacts.jv
    jvInverse := shift offset artifacts.jvInverse
    bvu := shift offset artifacts.bvu
    drift := shift offset artifacts.drift
    bPrime := shift offset artifacts.bPrime }⟩

namespace Action

variable {α : Type} [Numbered α]

theorem onGraph_conforms {action action' : Graph.Action κ α}
    (conforms : Conforms offset action' action) :
    Conforms offset (onGraph action') (onGraph action) := by
  intro session blind
  obtain ⟨outcome, later⟩ : action'.perform (shift offset session) =
      shift offset (action.perform session) ∧ Blind (action.perform session).2 :=
    conforms session blind
  change (onGraph action').perform (shift offset session) =
    shift offset ((onGraph action).perform session) ∧ Blind ((onGraph action).perform session).2
  rw [perform_onGraph, perform_onGraph, outcome]
  rcases found : action.perform session with ⟨_ | _, middle⟩ <;> rw [found] at later <;>
    exact ⟨rfl, later⟩

theorem ofAlgebra_conforms (outcome : Except AlgebraError α) :
    Conforms offset (ofAlgebra (shift offset outcome) : Action κ α) (ofAlgebra outcome) := by
  cases outcome with
  | ok value => exact .pure value
  | error error => exact Conforms.throw (LoopError.algebra error)

end Action

theorem define_conforms (symbol : Symbol) (value : Tensor κ) :
    Conforms offset (define (shift offset symbol) (shift offset value)) (define symbol value) :=
  (Action.onGraph_conforms (Graph.register_conforms symbol value _ symbol.name)).bind fun _ =>
    .pure ()

theorem defineNew_conforms (name : String) (rows columns : Nat) (value : Tensor κ) :
    Conforms offset (defineNew name rows columns (shift offset value))
      (defineNew name rows columns value) :=
  (Action.onGraph_conforms (Graph.Action.freshSymbol_conforms name _)).bind fun symbol =>
    (define_conforms symbol value).bind fun _ => .pure symbol

theorem defineEach_conforms (column : Tensor κ) (symbols : List Symbol) :
    Conforms offset (defineEach (shift offset column) (symbols.map (shift offset)))
      (defineEach column symbols) := by
  have numbered : (symbols.map (shift offset)).zipIdx = symbols.zipIdx.map (shift offset) := by
    rw [List.zipIdx_map]
    rfl
  unfold defineEach
  rw [numbered]
  refine .forM symbols.zipIdx fun entry _ => ?_
  simp only [shift_pair, shift_plain, id_eq, Tensor.entryAt_shift]
  exact (Action.ofAlgebra_conforms (column.entryAt entry.2)).bind fun expr =>
    define_conforms entry.1 (.ofExpr expr)

theorem register_conforms (name : String) (derivation : Derivation κ) :
    Conforms offset (register name (shift offset derivation)) (register name derivation) := by
  obtain ⟨⟨independent, dependent, constraint, solution⟩, jacobians, drift⟩ := derivation
  have rates : ∀ rate : Coordinate → Expr κ,
      (∀ coordinate, rate (shift offset coordinate) = shift offset (rate coordinate)) →
      Tensor.ofColumn ((independent.map (shift offset)).map rate) =
        shift offset (Tensor.ofColumn (independent.map rate)) := by
    intro rate same
    rw [← Tensor.ofColumn_shift]
    simp [Function.comp_def, same]
  have parts : ∀ part : Coordinate → Symbol,
      (∀ coordinate, part (shift offset coordinate) = shift offset (part coordinate)) →
      (dependent.map (shift offset)).map part = (dependent.map part).map (shift offset) := by
    intro part same
    simp [Function.comp_def, same]
  have zipped : (dependent.map (shift offset)).zip (solution.map (shift offset)) =
      (dependent.zip solution).map (shift offset) := List.zip_map ..
  unfold register
  simp only [Derivation.shift_geometry, Derivation.shift_jacobians, Derivation.shift_drift,
    Geometry.shift_mk, Jacobians.shift_independent, Jacobians.shift_dependent, List.length_map,
    zipped, rates _ (Coordinate.velocityExpr_shift offset),
    rates _ (Coordinate.accelerationExpr_shift offset),
    parts _ (Coordinate.shift_velocity offset), parts _ (Coordinate.shift_acceleration offset)]
  refine Conforms.bind (.forM (dependent.zip solution) fun entry _ =>
    define_conforms entry.1.position (.ofExpr entry.2)) fun _ => ?_
  refine (defineNew_conforms _ _ _ jacobians.independent).bind fun ju => ?_
  refine (defineNew_conforms _ _ _ jacobians.dependent).bind fun jv => ?_
  simp only [Tensor.ofSymbol_shift, Tensor.inverse_shift]
  refine (Action.ofAlgebra_conforms _).bind fun inverse => ?_
  refine (defineNew_conforms _ _ _ inverse).bind fun jvInverse => ?_
  simp only [Tensor.ofSymbol_shift, Tensor.matmul_shift]
  refine (Action.ofAlgebra_conforms _).bind fun ratio => ?_
  rw [Tensor.negate_shift]
  refine (defineNew_conforms _ _ _ ratio.negate).bind fun bvu => ?_
  simp only [Tensor.ofSymbol_shift, Tensor.matmul_shift]
  refine (Action.ofAlgebra_conforms _).bind fun followed => ?_
  refine (defineEach_conforms followed _).bind fun _ => ?_
  refine (defineNew_conforms _ _ _ drift).bind fun driftSymbol => ?_
  simp only [Tensor.ofSymbol_shift, Tensor.matmul_shift]
  refine (Action.ofAlgebra_conforms _).bind fun compensation => ?_
  rw [Tensor.negate_shift]
  refine (defineNew_conforms _ _ _ compensation.negate).bind fun bPrime => ?_
  refine (Action.ofAlgebra_conforms _).bind fun driven => ?_
  simp only [Tensor.ofSymbol_shift, Tensor.add_shift]
  refine (Action.ofAlgebra_conforms _).bind fun total => ?_
  refine (defineEach_conforms total _).bind fun _ => ?_
  exact Conforms.pure (⟨independent, dependent, constraint, ju, jv, jvInverse, bvu, driftSymbol,
    bPrime⟩ : Artifacts κ)

instance : Numbered (Configuration κ) := ⟨fun _ => id⟩
instance : Plain (Configuration κ) := ⟨fun _ => rfl⟩

@[simp] theorem Numbers.assignment_shift (numbers : Numbers κ) (atom : Atom) :
    Numbers.assignment (shift offset numbers) (shift offset atom) = numbers.assignment atom := by
  simp only [assignment, Atom.symbol_shift, Table.find?_shift, shift_plain, Option.map_id, id_eq,
    Atom.flatIndex_shift]

@[simp] theorem Derivation.parameters_shift (derivation : Derivation κ) :
    (shift offset derivation).parameters = derivation.parameters.map (shift offset) := by
  have followers : (derivation.geometry.dependent.map (shift offset)).map Coordinate.position =
      (derivation.geometry.dependent.map Coordinate.position).map (shift offset) := by
    simp [Function.comp_def]
  unfold parameters
  simp only [shift_geometry, Geometry.shift_solution, Geometry.shift_dependent, shift_jacobians,
    Jacobians.shift_dependent, Tensor.symbols_shift, followers, ← List.map_append,
    flatMap_shift offset derivation.geometry.solution fun expr _ => Expr.symbols_shift offset expr,
    Grouping.distinct_shift, List.filter_map, Function.comp_def, contains_map_shift]

theorem numbersOf_shift (symbols : List Symbol) (known : Numbers κ) {session : Graph.Session κ}
    (blind : Blind session) :
    (numbersOf (symbols.map (shift offset)) (shift offset known)).run (shift offset session) =
        (shift offset ((numbersOf symbols known).run session) :
          Option (Numbers κ) × Graph.Session κ) ∧
      Blind ((numbersOf symbols known).run session).2 := by
  induction symbols generalizing known session with
  | nil => exact ⟨rfl, blind⟩
  | cons symbol rest ih =>
      obtain ⟨outcome, later⟩ : (Graph.numbersOf (shift offset symbol)).perform
          (shift offset session) = shift offset ((Graph.numbersOf symbol).perform session) ∧
            Blind ((Graph.numbersOf symbol).perform session).2 :=
        Graph.numbersOf_conforms symbol session blind
      rw [List.map_cons]
      rcases answer : (Graph.numbersOf symbol).perform session with ⟨error | _ | entries, after⟩ <;>
        rw [answer] at outcome later
      · rw [run_numbersOf_error answer, run_numbersOf_error outcome]
        exact ⟨rfl, later⟩
      · rw [run_numbersOf_none answer, run_numbersOf_none outcome]
        exact ⟨rfl, later⟩
      · have rest := ih (known.insert symbol entries) later
        rw [← Table.insert_plain] at rest
        rw [run_numbersOf_numbers answer, run_numbersOf_numbers outcome]
        simpa using rest

theorem determinantAt_shift (numbers : Numbers κ) (jacobian : Tensor κ) :
    determinantAt (shift offset numbers) (shift offset jacobian) = determinantAt numbers jacobian := by
  rw [determinantAt, determinantAt,
    Tensor.evaluate_shift offset jacobian (Numbers.assignment_shift numbers)]
  rfl

def follow (known : Numbers κ) (follower : Coordinate × Option κ) : Numbers κ :=
  match follower with
  | (coordinate, value) =>
    match value with
    | some value => known.insert coordinate.position [value]
    | none => known

theorem Derivation.configurationAt_shift (derivation : Derivation κ) (numbers : Numbers κ) :
    (shift offset derivation).configurationAt (shift offset numbers) =
      derivation.configurationAt numbers := by
  obtain ⟨⟨independent, dependent, constraint, solution⟩, jacobians, drift⟩ := derivation
  have solved : (solution.map (shift offset)).map (fun expr =>
      expr.evaluate (Numbers.assignment (shift offset numbers))) =
        solution.map fun expr => expr.evaluate numbers.assignment := by
    rw [List.map_map]
    exact List.map_congr_left fun expr _ =>
      Expr.evaluate_shift offset (Numbers.assignment_shift numbers) expr
  have completed : ((dependent.map (shift offset)).zip
      (solution.map fun expr => expr.evaluate numbers.assignment)).foldl follow
        (shift offset numbers) =
          shift offset ((dependent.zip
            (solution.map fun expr => expr.evaluate numbers.assignment)).foldl follow numbers) := by
    rw [List.zip_map_left]
    refine foldl_related (fun moved known => moved = shift offset known) ?_ _ rfl
    rintro _ known ⟨coordinate, _ | value⟩ rfl
    · rfl
    · exact Table.insert_plain offset known coordinate.position [value]
  have drivers : (independent.map (shift offset)).filterMap (fun coordinate => do
      let entries ← (shift offset numbers).find? coordinate.position
      return (coordinate.name, some (← entries.head?))) =
        independent.filterMap fun coordinate => do
          let entries ← numbers.find? coordinate.position
          return (coordinate.name, some (← entries.head?)) := by
    rw [List.filterMap_map]
    refine List.filterMap_congr fun coordinate _ => ?_
    simp
  have followers : (dependent.map (shift offset)).map Coordinate.name =
      dependent.map Coordinate.name := by
    simp [Function.comp_def]
  unfold configurationAt
  simp only [shift_geometry, shift_jacobians, Geometry.shift_mk, solved, drivers, followers]
  change (do
    let determinant ← if _ then determinantAt (List.foldl follow _ _) _ else _
    _) = _
  rw [completed]
  simp only [Jacobians.shift_dependent, determinantAt_shift]
  rfl

theorem checkRegularity_conforms (name : String) (settings : Settings κ) (derivation : Derivation κ) :
    Conforms offset (checkRegularity name settings (shift offset derivation))
      (checkRegularity name settings derivation) := by
  have asked : Conforms offset
      (liftM (numbersOf (derivation.parameters.map (shift offset)) ∅) : Action κ (Option (Numbers κ)))
      (liftM (numbersOf derivation.parameters ∅)) :=
    .lift fun session blind => numbersOf_shift derivation.parameters ∅ blind
  unfold checkRegularity
  rw [Derivation.parameters_shift]
  refine asked.bind fun found => ?_
  cases found with
  | none => exact .pure ()
  | some numbers =>
      simp only [shift_option, Option.map_some, Derivation.configurationAt_shift]
      have configured : Conforms offset
          (Action.ofAlgebra (shift offset (derivation.configurationAt numbers)) :
            Action κ (Configuration κ)) _ := Action.ofAlgebra_conforms _
      rw [shift_plain, id_eq] at configured
      refine configured.bind fun configuration => ?_
      rw [shift_plain, id_eq]
      split
      · exact Conforms.throw (LoopError.singularity name _ _)
      · exact .pure ()

instance : Numbered (Progress κ) := ⟨fun offset progress =>
  match progress with
  | .unresolved => .unresolved
  | .geometrySolved geometry => .geometrySolved (shift offset geometry)
  | .linearizedOnce geometry jacobians =>
    .linearizedOnce (shift offset geometry) (shift offset jacobians)
  | .linearizedTwice derivation => .linearizedTwice (shift offset derivation)
  | .registered derivation artifacts =>
    .registered (shift offset derivation) (shift offset artifacts)⟩

@[simp] theorem Progress.name_shift (progress : Progress κ) :
    (shift offset progress).name = progress.name := by
  cases progress <;> rfl

instance : Numbered (Descriptor κ) := ⟨fun offset descriptor =>
  ⟨shift offset descriptor.problem, descriptor.settings, shift offset descriptor.progress⟩⟩

instance : Numbered (Descriptor.Attempt κ) := ⟨fun offset attempt =>
  ⟨shift offset attempt.outcome, shift offset attempt.descriptor, shift offset attempt.session⟩⟩

namespace Descriptor

variable (descriptor : Descriptor κ)

@[simp] theorem shift_settings : (shift offset descriptor).settings = descriptor.settings := rfl

@[simp] theorem shift_problem :
    (shift offset descriptor).problem = shift offset descriptor.problem := rfl

@[simp] theorem shift_progress :
    (shift offset descriptor).progress = shift offset descriptor.progress := rfl

@[simp] theorem name_shift : (shift offset descriptor).name = descriptor.name := rfl

@[simp] theorem artifacts?_shift :
    (shift offset descriptor).artifacts? = descriptor.artifacts?.map (shift offset) := by
  unfold artifacts?
  rw [shift_progress]
  cases descriptor.progress <;> rfl

@[simp] theorem enter_shift (progress : Progress κ) :
    (shift offset descriptor).enter (shift offset progress) =
      shift offset (descriptor.enter progress) := rfl

theorem new_shift [ScalarText κ] (request : Request κ) (chain : Chain κ) (settings : Settings κ) :
    new (shift offset request) (shift offset chain) settings =
      shift offset (new request chain settings) := by
  have moving : movingFrames (shift offset request) = (movingFrames request).map (shift offset) := by
    simp only [movingFrames, Request.shift_topology, Topology.allowsFixedFrame_shift,
      Request.shift_frameA, Request.shift_frameB]
    split <;> rfl
  unfold new
  rw [moving]
  cases settings.fault? with
  | some reason => rfl
  | none =>
      simp only [List.find?_map, Function.comp_def, Frame.shift_body, Request.shift_name]
      cases (movingFrames request).find? fun frame => frame.body.isNone <;> rfl

theorem linearizeTwice_shift (geometry : Geometry κ) (jacobians : Jacobians κ) :
    (shift offset descriptor).linearizeTwice (shift offset geometry) (shift offset jacobians) =
      shift offset (descriptor.linearizeTwice geometry jacobians) := by
  unfold linearizeTwice
  rw [Geometry.drift_shift]
  cases geometry.drift <;> rfl

theorem linearizeOnce_shift (geometry : Geometry κ) :
    (shift offset descriptor).linearizeOnce (shift offset geometry) =
      shift offset (descriptor.linearizeOnce geometry) := by
  unfold linearizeOnce
  rw [Geometry.jacobians_shift]
  cases geometry.jacobians with
  | error error => rfl
  | ok jacobians =>
      exact linearizeTwice_shift (descriptor.enter (.linearizedOnce geometry jacobians)) geometry
        jacobians

theorem derive_shift :
    (shift offset descriptor).derive = shift offset descriptor.derive := by
  unfold derive
  rw [shift_progress]
  cases descriptor.progress with
  | unresolved =>
      have moved : (shift offset descriptor).problem.solve = shift offset descriptor.problem.solve :=
        Problem.solve_shift ..
      cases solved : descriptor.problem.solve with
      | error error =>
          rw [solved] at moved
          rw [show shift offset (Progress.unresolved : Progress κ) = .unresolved from rfl, moved]
          rfl
      | ok geometry =>
          rw [solved] at moved
          rw [show shift offset (Progress.unresolved : Progress κ) = .unresolved from rfl, moved]
          exact linearizeOnce_shift (descriptor.enter (.geometrySolved geometry)) geometry
  | geometrySolved geometry => exact linearizeOnce_shift descriptor geometry
  | linearizedOnce geometry jacobians => exact linearizeTwice_shift descriptor geometry jacobians
  | linearizedTwice derivation => rfl
  | registered derivation artifacts => rfl

theorem insert_conforms (derivation : Derivation κ) :
    Conforms offset ((shift offset descriptor).insert (shift offset derivation))
      (descriptor.insert derivation) := by
  unfold insert
  rw [shift_settings, name_shift]
  split
  · exact (checkRegularity_conforms _ _ derivation).bind fun _ => register_conforms _ derivation
  · exact register_conforms _ derivation

def attemptWith (derived : Answer κ (Derivation κ) × Descriptor κ) (session : Graph.Session κ) :
    Attempt κ :=
  match derived with
  | (.error error, descriptor) => ⟨.error error, descriptor, session⟩
  | (.ok derivation, descriptor) =>
    match outcomeOf (descriptor.insert derivation) session with
    | (.error error, session) => ⟨.error error, descriptor, session⟩
    | (.ok artifacts, session) =>
      ⟨.ok artifacts, descriptor.enter (.registered derivation artifacts), session⟩

theorem close_eq (session : Graph.Session κ) :
    descriptor.close session =
      match descriptor.artifacts? with
      | some artifacts => ⟨.ok artifacts, descriptor, session⟩
      | none => attemptWith descriptor.derive session := by
  unfold close artifacts?
  cases descriptor.progress <;> rfl

theorem attemptWith_shift (derived : Answer κ (Derivation κ) × Descriptor κ)
    {session : Graph.Session κ} (blind : Blind session) :
    attemptWith (shift offset derived) (shift offset session) =
        shift offset (attemptWith derived session) ∧
      Blind (attemptWith derived session).session := by
  obtain ⟨error | derivation, descriptor⟩ := derived
  · exact ⟨rfl, blind⟩
  · have inserted : Conforms offset _ _ := insert_conforms descriptor derivation
    obtain ⟨outcome, later⟩ := inserted session blind
    simp only [attemptWith, shift_pair, shift_ok, outcome]
    generalize outcomeOf (descriptor.insert derivation) session = answer at later ⊢
    rcases answer with ⟨_ | _, _⟩ <;> exact ⟨rfl, later⟩

theorem close_shift (offset : Nat) {session : Graph.Session κ} (blind : Blind session) :
    (shift offset descriptor).close (shift offset session) =
        shift offset (descriptor.close session) ∧
      Blind (descriptor.close session).session := by
  rw [close_eq, close_eq, artifacts?_shift, derive_shift]
  cases descriptor.artifacts? with
  | some artifacts => exact ⟨rfl, blind⟩
  | none => exact attemptWith_shift descriptor.derive blind

theorem verify_conforms :
    Conforms offset (shift offset descriptor).verify descriptor.verify := by
  unfold verify
  rw [shift_settings, name_shift, shift_progress]
  cases descriptor.settings.checkSingularity with
  | false => exact .pure ()
  | true =>
      cases descriptor.progress with
      | registered derivation _ => exact checkRegularity_conforms _ _ derivation
      | _ => exact .pure ()

end Descriptor

end Mechanism.Loop
