import Mechanism.Model.Dynamics
import Mechanism.Model.Equations
import Mechanism.Proofs.Model.Session
import Mechanism.Proofs.Numbering.Descriptor

/-!
Models whose numbers are moved. Coordinates and loops are looked up by name, so every action on a
model conforms to itself.
-/

namespace Mechanism

variable {κ : Type} [Scalar κ] {offset : Nat}

instance : Numbered (ModelError κ) := ⟨fun offset error =>
  match error with
  | .graph error => .graph (shift offset error)
  | .loop error => .loop (shift offset error)
  | other => other⟩

@[simp] theorem ModelError.message_shift [ScalarText κ] (error : ModelError κ) :
    (shift offset error).message = error.message := by
  cases error with
  | graph error => exact GraphError.message_shift offset error
  | loop error => exact LoopError.message_shift offset error
  | _ => rfl

namespace Model

instance : Numbered Dynamics := ⟨fun offset dynamics =>
  ⟨dynamics.independent.map (shift offset), shift offset dynamics.mass, shift offset dynamics.bias,
    shift offset dynamics.forces⟩⟩

end Model

instance : Numbered (Model κ) := ⟨fun offset model =>
  { model with
    graph := shift offset model.graph
    chain := shift offset model.chain
    coordinates := shift offset model.coordinates
    loops := shift offset model.loops
    pending := shift offset model.pending
    dynamics := shift offset model.dynamics }⟩

namespace Model

section Fields

variable (model : Model κ)

@[simp] theorem shift_settings : (shift offset model).settings = model.settings := rfl

@[simp] theorem shift_graph : (shift offset model).graph = shift offset model.graph := rfl

@[simp] theorem shift_chain : (shift offset model).chain = shift offset model.chain := rfl

@[simp] theorem shift_coordinates :
    (shift offset model).coordinates = shift offset model.coordinates := rfl

@[simp] theorem shift_closedBy : (shift offset model).closedBy = model.closedBy := rfl

@[simp] theorem shift_loops : (shift offset model).loops = shift offset model.loops := rfl

@[simp] theorem shift_pending : (shift offset model).pending = shift offset model.pending := rfl

@[simp] theorem shift_dynamics : (shift offset model).dynamics = shift offset model.dynamics := rfl

@[simp] theorem shift_checkedRevision :
    (shift offset model).checkedRevision = model.checkedRevision := rfl

theorem new_shift [ScalarText κ] (settings : Settings κ) (simplifier : Simplifier κ) :
    shift offset (new settings simplifier) = new settings simplifier := by
  unfold new
  cases settings.fault? <;> rfl

@[simp] theorem allCoordinates_shift :
    (shift offset model).allCoordinates = model.allCoordinates.map (shift offset) := by
  simp [allCoordinates, Function.comp_def]

@[simp] theorem isClosed_shift (coordinate : Coordinate) :
    (shift offset model).isClosed (shift offset coordinate) = model.isClosed coordinate := rfl

@[simp] theorem independentCoordinates_shift :
    (shift offset model).independentCoordinates =
      model.independentCoordinates.map (shift offset) := by
  simp [independentCoordinates, List.filter_map, Function.comp_def]

theorem find?_named {β : Type} [Numbered β] (table : Table String β) (name : String) :
    (shift offset table).find? name = (table.find? name).map (shift offset) := by
  simpa using Table.find?_shift offset table name

theorem contains_named {β : Type} [Numbered β] (table : Table String β) (name : String) :
    (shift offset table).contains name = table.contains name := by
  simpa using Table.contains_shift offset table name

theorem insert_named {β : Type} [Numbered β] (table : Table String β) (name : String) (value : β) :
    (shift offset table).insert name (shift offset value) =
      shift offset (table.insert name value) := by
  simpa using Table.insert_shift offset table name value

@[simp] theorem artifacts?_shift (loop : String) :
    (shift offset model).artifacts? loop = (model.artifacts? loop).map (shift offset) := by
  simp only [artifacts?, shift_loops, find?_named]
  cases model.loops.find? loop with
  | none => rfl
  | some descriptor => exact Loop.Descriptor.artifacts?_shift descriptor

end Fields

instance : Working (Session κ) where
  shift offset session := ⟨shift offset session.model, shift offset session.supply⟩
  Blind session := session.model.graph.simplifier.Blind

namespace Action

variable {α : Type} [Numbered α]

theorem getModel_conforms {next next' : Model κ → Action κ α}
    (rest : ∀ model, model.graph.simplifier.Blind →
      Conforms offset (next' (shift offset model)) (next model)) :
    Conforms offset (getModel >>= next') (getModel >>= next) :=
  fun session blind => rest session.model blind session blind

theorem modifyModel_conforms {change change' : Model κ → Model κ}
    (same : ∀ model, change' (shift offset model) = shift offset (change model))
    (keeps : ∀ model, (change model).graph = model.graph) :
    Conforms offset (modifyModel change') (modifyModel change) := by
  refine .modify (fun session => ?_) fun session blind => ?_
  · exact congrArg (Session.mk · _) (same session.model)
  · change (change session.model).graph.simplifier.Blind
    rw [keeps]
    exact blind

theorem graphSession_shift (session : Session κ) :
    graphSession (shift offset session) = shift offset (graphSession session) := rfl

theorem onGraph_conforms {action action' : Graph.Action κ α}
    (conforms : Conforms offset action' action) :
    Conforms offset (onGraph action') (onGraph action) := by
  intro session blind
  obtain ⟨outcome, later⟩ : action'.perform (shift offset (graphSession session)) =
      shift offset (action.perform (graphSession session)) ∧
        Blind (action.perform (graphSession session)).2 :=
    conforms (graphSession session) blind
  change (onGraph action').perform (shift offset session) =
    shift offset ((onGraph action).perform session) ∧ Blind ((onGraph action).perform session).2
  rw [perform_onGraph, perform_onGraph, graphSession_shift, outcome]
  generalize action.perform (graphSession session) = answer at later ⊢
  rcases answer with ⟨_ | _, _⟩ <;> exact ⟨rfl, later⟩

theorem onLoop_conforms {action action' : Loop.Action κ α}
    (conforms : Conforms offset action' action) :
    Conforms offset (onLoop action') (onLoop action) := by
  intro session blind
  obtain ⟨outcome, later⟩ : action'.perform (shift offset (graphSession session)) =
      shift offset (action.perform (graphSession session)) ∧
        Blind (action.perform (graphSession session)).2 :=
    conforms (graphSession session) blind
  change (onLoop action').perform (shift offset session) =
    shift offset ((onLoop action).perform session) ∧ Blind ((onLoop action).perform session).2
  rw [perform_onLoop, perform_onLoop, graphSession_shift, outcome]
  generalize action.perform (graphSession session) = answer at later ⊢
  rcases answer with ⟨_ | _, _⟩ <;> exact ⟨rfl, later⟩

theorem ofLoop_conforms (outcome : Loop.Answer κ α) :
    Conforms offset (ofLoop (shift offset outcome) : Action κ α) (ofLoop outcome) := by
  cases outcome with
  | ok value => exact .pure value
  | error error => exact Conforms.throw (ModelError.loop error)

end Action

variable (symbol : Symbol) (value : Tensor κ) (categories : CategorySet)

theorem parameter_conforms (name : String) :
    Conforms offset (parameter name (shift offset value)) (parameter name value) :=
  (Action.onGraph_conforms (Graph.Action.freshSymbol_conforms name value.shape)).bind fun symbol =>
    (Action.onGraph_conforms (Graph.declareInput_conforms symbol _ (some value))).bind fun _ =>
      .pure symbol

theorem input_conforms (name : String) (shape : Shape) :
    Conforms offset (input name shape categories : Action κ Symbol) (input name shape categories) :=
  (Action.onGraph_conforms (Graph.Action.freshSymbol_conforms name shape)).bind fun symbol =>
    (Action.onGraph_conforms (Graph.declareInput_conforms symbol categories none)).bind fun _ =>
      .pure symbol

theorem addCoordinate_conforms (name : String) :
    Conforms offset (addCoordinate name : Action κ Coordinate) (addCoordinate name) := by
  refine .get_bind fun session blind => ?_
  have known : (shift offset session).model.coordinates.contains name =
      session.model.coordinates.contains name := contains_named session.model.coordinates name
  refine .guard (by rw [known]) (ModelError.duplicateCoordinate name) ?_
  have issued : Coordinate.fresh (shift offset session).supply name = _ :=
    Coordinate.fresh_shift offset session.supply name
  rw [issued]
  obtain ⟨coordinate, supply⟩ := Coordinate.fresh session.supply name
  have inserted : (shift offset session).model.coordinates.insert name (shift offset coordinate) = _ :=
    insert_named session.model.coordinates name coordinate
  simp only [shift_pair, inserted]
  refine (Conforms.set (⟨{ session.model with
    coordinates := session.model.coordinates.insert name coordinate }, supply⟩ : Session κ)
    blind).bind fun _ => ?_
  exact .pure coordinate

theorem addJoint_conforms (joint : Joint κ) :
    Conforms offset (addJoint (shift offset joint)) (addJoint joint) := by
  refine Action.getModel_conforms fun model _ => ?_
  simp only [Joint.shift_coordinate, Coordinate.shift_name, shift_coordinates, find?_named]
  cases model.coordinates.find? joint.coordinate.name with
  | none => exact Conforms.throw (ModelError.unknownCoordinate _)
  | some known =>
      refine .guard (by simp) (ModelError.coordinateConflict _ .otherCoordinate) ?_
      rw [shift_chain, Chain.add_shift]
      cases model.chain.add joint with
      | error error => exact Conforms.throw (ModelError.loop (.chain error))
      | ok added =>
          refine Conforms.bind (Action.modifyModel_conforms (fun _ => rfl) fun _ => rfl) fun _ => ?_
          exact .answer added.1

theorem registerExpression_conforms (name : String) :
    Conforms offset (registerExpression name (shift offset symbol) (shift offset value) categories)
      (registerExpression name symbol value categories) :=
  Action.onGraph_conforms (Graph.register_conforms symbol value categories name)

theorem define_conforms (name : String) :
    Conforms offset (define name (shift offset value) categories) (define name value categories) :=
  Action.onGraph_conforms (Graph.define_conforms value categories name)

@[simp] theorem isOpen_shift (model : Model κ) :
    (shift offset model).isOpen (shift offset symbol) = model.isOpen symbol := by
  simp [isOpen, Function.comp_def]

theorem changeValue_conforms :
    Conforms offset (changeValue (shift offset symbol) (shift offset value))
      (changeValue symbol value) := by
  refine Action.getModel_conforms fun model _ => ?_
  simp only [shift_graph, Graph.isInput_shift, isOpen_shift, Tensor.shift_shape, Symbol.shift_name]
  split
  · refine .guard .rfl (ModelError.graph (.shapeMismatch symbol.name .scalar value.shape)) ?_
    refine Action.modifyModel_conforms (fun model => ?_) fun _ => rfl
    rw [shift_pending, Table.insert_shift]
    rfl
  · exact Action.onGraph_conforms (Graph.bindInput_conforms symbol value)

theorem declareRate_conforms (category : Category) :
    Conforms offset (declareRate (shift offset symbol) category : Action κ Unit)
      (declareRate symbol category) := by
  refine Action.getModel_conforms fun model _ => ?_
  simp only [shift_pending, Table.find?_shift]
  refine Conforms.bind (Action.modifyModel_conforms (fun model => ?_) fun _ => rfl) fun _ => ?_
  · rw [shift_pending, Table.erase_shift]
    rfl
  · exact Action.onGraph_conforms (Graph.declareInput_conforms symbol _ _)

theorem declareCoordinate_conforms (coordinate : Coordinate) :
    Conforms offset (declareCoordinate (shift offset coordinate) : Action κ Unit)
      (declareCoordinate coordinate) := by
  refine Action.getModel_conforms fun model _ => ?_
  simp only [shift_graph, Coordinate.shift_position, Graph.isInput_shift, Coordinate.shift_velocity,
    Coordinate.shift_acceleration]
  split
  · exact .pure ()
  · exact (declareRate_conforms _ _).bind fun _ =>
      (declareRate_conforms _ _).bind fun _ => declareRate_conforms _ _

theorem declareCoordinates_conforms :
    Conforms offset (declareCoordinates : Action κ Unit) declareCoordinates := by
  refine Action.getModel_conforms fun model _ => ?_
  rw [independentCoordinates_shift]
  exact .forM _ fun coordinate _ => declareCoordinate_conforms coordinate

instance : Numbered Conflict := ⟨fun _ => id⟩
instance : Plain Conflict := ⟨fun _ => rfl⟩

theorem jointCoordinates_conforms (ids : List JointId) :
    Conforms offset (jointCoordinates ids : Action κ (List Coordinate)) (jointCoordinates ids) := by
  refine Action.getModel_conforms fun model _ => ?_
  refine .mapM_moved ids fun id _ => ?_
  rw [shift_chain, Chain.joint?_shift]
  cases model.chain.joint? id with
  | none => exact Conforms.throw (ModelError.unknownJoint id)
  | some joint => exact .pure joint.coordinate

@[simp] theorem conflict?_shift (model : Model κ) (coordinate : Coordinate) :
    (shift offset model).conflict? (shift offset coordinate) = model.conflict? coordinate := by
  simp only [conflict?, shift_closedBy, Coordinate.shift_name, shift_graph,
    Coordinate.shift_position, Graph.isInput_shift]

theorem checkFollower_conforms (coordinate : Coordinate) :
    Conforms offset (checkFollower (shift offset coordinate) : Action κ Unit)
      (checkFollower coordinate) := by
  refine Action.getModel_conforms fun model _ => ?_
  rw [conflict?_shift]
  cases model.conflict? coordinate with
  | none => exact .pure ()
  | some conflict => exact Conforms.throw (ModelError.coordinateConflict coordinate.name conflict)

theorem declareDriver_conforms (coordinate : Coordinate) :
    Conforms offset (declareDriver (shift offset coordinate) : Action κ Unit)
      (declareDriver coordinate) := by
  refine Action.getModel_conforms fun model _ => ?_
  rw [isClosed_shift]
  split
  · exact declareCoordinate_conforms coordinate
  · exact .pure ()

@[simp] theorem addLoop_shift (model : Model κ) (descriptor : Loop.Descriptor κ)
    (artifacts : Loop.Artifacts κ) :
    (shift offset model).addLoop (shift offset descriptor) (shift offset artifacts) =
      shift offset (model.addLoop descriptor artifacts) := by
  have closed : (artifacts.dependent.map (shift offset)).foldl (fun closedBy coordinate =>
      closedBy.insert coordinate.name descriptor.name) model.closedBy =
        artifacts.dependent.foldl (fun closedBy coordinate =>
          closedBy.insert coordinate.name descriptor.name) model.closedBy := by
    rw [List.foldl_map]
    rfl
  have dependent : (shift offset artifacts).dependent = artifacts.dependent.map (shift offset) := rfl
  simp only [addLoop, dependent, Loop.Descriptor.name_shift, shift_closedBy, closed, shift_loops,
    insert_named]
  rfl

theorem closeLoop_conforms (descriptor : Loop.Descriptor κ) :
    Conforms offset (closeLoop (shift offset descriptor)) (closeLoop descriptor) := by
  refine .get_bind fun session blind => ?_
  have working : Blind (Action.graphSession session) := blind
  obtain ⟨closed, later⟩ := descriptor.close_shift offset working
  rw [Action.graphSession_shift, closed]
  generalize descriptor.close (Action.graphSession session) = attempt at later
  refine Conforms.bind (.modify (fun _ => rfl) fun _ _ => later) fun _ => ?_
  refine (Action.ofLoop_conforms attempt.outcome).bind fun artifacts => ?_
  refine Conforms.bind (Action.modifyModel_conforms
    (fun model => addLoop_shift model attempt.descriptor artifacts) fun _ => rfl) fun _ => ?_
  exact .pure artifacts

theorem registerLoop_conforms [ScalarText κ] (request : Loop.Request κ) :
    Conforms offset (registerLoop (shift offset request)) (registerLoop request) := by
  refine Action.getModel_conforms fun model _ => ?_
  rw [Loop.Request.shift_name, shift_loops, contains_named]
  refine .guard .rfl (ModelError.duplicateLoop request.name) ?_
  refine (jointCoordinates_conforms request.independent).bind fun independent => ?_
  refine (jointCoordinates_conforms request.dependent).bind fun dependent => ?_
  refine Conforms.bind (.forM dependent fun coordinate _ => checkFollower_conforms coordinate)
    fun _ => ?_
  refine Conforms.bind (.forM independent fun coordinate _ => declareDriver_conforms coordinate)
    fun _ => ?_
  refine Action.getModel_conforms fun model _ => ?_
  rw [shift_chain, shift_settings, Loop.Descriptor.new_shift]
  exact (Action.ofLoop_conforms _).bind closeLoop_conforms

theorem verifyLoops_conforms :
    Conforms offset (verifyLoops : Action κ Unit) verifyLoops := by
  refine Action.getModel_conforms fun model _ => ?_
  simp only [shift_checkedRevision, shift_graph, Graph.shift_store, Graph.Store.shift_revision,
    shift_loops, Table.shift_entries]
  split
  · exact .pure ()
  · refine Conforms.bind (.forM model.loops.entries fun entry _ =>
      Action.onLoop_conforms (Loop.Descriptor.verify_conforms entry.2)) fun _ => ?_
    exact Action.modifyModel_conforms (fun _ => rfl) fun _ => rfl

instance : Numbered (ClosureRow κ) := ⟨fun offset row =>
  ⟨row.coefficients.map (shift offset), shift offset row.offset⟩⟩

namespace ClosureRow

variable (row driver : ClosureRow κ)

@[simp] theorem shift_coefficients :
    (shift offset row).coefficients = row.coefficients.map (shift offset) := rfl

@[simp] theorem shift_offset : (shift offset row).offset = shift offset row.offset := rfl

@[simp] theorem shift_mk (coefficients : List (Expr κ)) (constant : Expr κ) :
    shift offset (ClosureRow.mk coefficients constant) =
      ⟨coefficients.map (shift offset), shift offset constant⟩ := rfl

@[simp] theorem shift_unit (count place : Nat) :
    shift offset (unit count place : ClosureRow κ) = unit count place := by
  simp [unit]

@[simp] theorem start_shift (count : Nat) (constant : Expr κ) :
    start count (shift offset constant) = shift offset (start count constant) := by
  simp [start]

@[simp] theorem addMultiple_shift (ratio : Expr κ) :
    (shift offset row).addMultiple (shift offset ratio) (shift offset driver) =
      shift offset (row.addMultiple ratio driver) := by
  have coefficients : List.zipWith (fun entry coefficient => entry + shift offset ratio * coefficient)
      (row.coefficients.map (shift offset)) (driver.coefficients.map (shift offset)) =
        (List.zipWith (fun entry coefficient => entry + ratio * coefficient) row.coefficients
          driver.coefficients).map (shift offset) := by
    rw [List.zipWith_map, List.map_zipWith]
    simp
  simp [addMultiple, coefficients]

end ClosureRow

@[simp] theorem mapError_shift {α : Type} [Numbered α] (outcome : Except AlgebraError α) :
    (shift offset outcome).mapError (ModelError.algebra : AlgebraError → ModelError κ) =
      shift offset (outcome.mapError .algebra) := by
  cases outcome <;> rfl

theorem foldlM_shift {α β ε : Type} [Numbered α] [Numbered β] [Numbered ε]
    {step step' : β → α → Except ε β} (items : List α)
    (same : ∀ state, ∀ item ∈ items,
      step' (shift offset state) (shift offset item) = shift offset (step state item))
    (start : β) :
    (items.map (shift offset)).foldlM step' (shift offset start) =
      shift offset (items.foldlM step start) := by
  induction items generalizing start with
  | nil => rfl
  | cons head tail ih =>
      rw [List.map_cons, List.foldlM_cons, List.foldlM_cons]
      refine bind_shift offset (same start head List.mem_cons_self) fun state => ?_
      exact ih (fun state item member => same state item (List.mem_cons_of_mem _ member)) state

theorem listedRow_shift (independent : List Coordinate) (coordinate : Coordinate) :
    (match (independent.map (shift offset)).findIdx? fun other =>
        other.position = (shift offset coordinate).position with
      | some place => .ok (.unit (independent.map (shift offset)).length place)
      | none => .error (.coordinateConflict (shift offset coordinate).name .notListed) :
        Except (ModelError κ) (ClosureRow κ)) =
      shift offset (match independent.findIdx? fun other => other.position = coordinate.position with
        | some place => .ok (.unit independent.length place)
        | none => .error (.coordinateConflict coordinate.name .notListed)) := by
  have places : (independent.map (shift offset)).findIdx? (fun other =>
      other.position = (shift offset coordinate).position) =
        independent.findIdx? fun other => other.position = coordinate.position := by
    simp [List.findIdx?_map, Function.comp_def]
  rw [places, List.length_map]
  cases independent.findIdx? fun other => other.position = coordinate.position with
  | none => rfl
  | some place => rw [shift_ok, ClosureRow.shift_unit]

theorem closureRow_shift (model : Model κ) (independent : List Coordinate) (fuel : Nat)
    (coordinate : Coordinate) :
    (shift offset model).closureRow (independent.map (shift offset)) fuel (shift offset coordinate) =
      shift offset (model.closureRow independent fuel coordinate) := by
  induction fuel generalizing coordinate with
  | zero =>
      unfold closureRow
      rw [shift_closedBy, Coordinate.shift_name]
      cases model.closedBy.find? coordinate.name with
      | none => exact listedRow_shift independent coordinate
      | some loop => rfl
  | succ fuel ih =>
      unfold closureRow
      rw [shift_closedBy, Coordinate.shift_name]
      cases model.closedBy.find? coordinate.name with
      | none => exact listedRow_shift independent coordinate
      | some loop =>
          simp only [artifacts?_shift]
          cases model.artifacts? loop with
          | none => rfl
          | some artifacts =>
              have places : (shift offset artifacts).dependent.findIdx? (fun other =>
                  other = shift offset coordinate) =
                    artifacts.dependent.findIdx? fun other => other = coordinate := by
                change (artifacts.dependent.map (shift offset)).findIdx? _ = _
                simp [List.findIdx?_map, Function.comp_def]
              simp only [Option.map_some, places]
              cases artifacts.dependent.findIdx? fun other => other = coordinate with
              | none => rfl
              | some place =>
                  have bPrime : (shift offset artifacts).bPrime = shift offset artifacts.bPrime := rfl
                  have bvu : (shift offset artifacts).bvu = shift offset artifacts.bvu := rfl
                  have drivers : (shift offset artifacts).independent.zipIdx =
                      artifacts.independent.zipIdx.map (shift offset) := List.zipIdx_map ..
                  simp only [bPrime, bvu, drivers, Symbol.entryAt_shift, Symbol.entry_shift,
                    mapError_shift]
                  refine bind_shift offset rfl fun constant => ?_
                  rw [List.length_map, ClosureRow.start_shift]
                  refine foldlM_shift _ (fun row entry _ => ?_) _
                  refine bind_shift offset rfl fun ratio => ?_
                  refine bind_shift offset (ih entry.1) fun driver => ?_
                  rw [ClosureRow.addMultiple_shift]
                  rfl

theorem accelerationMap_shift (model : Model κ) (coordinates independent : List Coordinate) :
    (shift offset model).accelerationMap (coordinates.map (shift offset))
        (independent.map (shift offset)) =
      shift offset (model.accelerationMap coordinates independent) := by
  refine bind_shift offset ?_ fun rows => ?_
  · exact mapM_shift offset coordinates fun coordinate _ =>
      closureRow_shift model independent _ coordinate
  · have coefficients : (rows.map (shift offset)).flatMap ClosureRow.coefficients =
        (rows.flatMap ClosureRow.coefficients).map (shift offset) :=
      flatMap_shift offset rows fun row _ => rfl
    have constants : (rows.map (shift offset)).map ClosureRow.offset =
        (rows.map ClosureRow.offset).map (shift offset) := by
      simp [Function.comp_def]
    simp only [shift_list, coefficients, constants, List.length_map, Tensor.matrix_shift]
    refine bind_shift offset (mapError_shift _) fun jacobian => ?_
    exact bind_shift offset (mapError_shift _) fun constant => rfl

instance : Numbered (Motion κ) := ⟨fun offset motion =>
  ⟨shift offset motion.mass, shift offset motion.bias, shift offset motion.forces⟩⟩

@[simp] theorem Motion.fault?_shift (motion : Motion κ) (size : Nat) :
    (shift offset motion).fault? size = motion.fault? size := by
  have columns : [("bias", (shift offset motion).bias), ("forces", (shift offset motion).forces)] =
      [("bias", motion.bias), ("forces", motion.forces)].map (shift offset) := rfl
  have mass : (shift offset motion).mass = shift offset motion.mass := rfl
  unfold fault?
  rw [columns, mass, List.find?_map, Option.map_map]
  rfl

@[simp] theorem Motion.reduce_shift (motion : Motion κ) (jacobian constant : Tensor κ) :
    (shift offset motion).reduce (shift offset jacobian) (shift offset constant) =
      shift offset (motion.reduce jacobian constant) := by
  have mass : (shift offset motion).mass = shift offset motion.mass := rfl
  have bias : (shift offset motion).bias = shift offset motion.bias := rfl
  have forces : (shift offset motion).forces = shift offset motion.forces := rfl
  unfold reduce
  simp only [mass, bias, forces, Tensor.transpose_shift, Tensor.matmul_shift]
  refine bind_shift offset rfl fun moved => ?_
  refine bind_shift offset (Tensor.matmul_shift ..) fun mass => ?_
  refine bind_shift offset rfl fun driven => ?_
  refine bind_shift offset (Tensor.add_shift ..) fun total => ?_
  refine bind_shift offset (Tensor.matmul_shift ..) fun bias => ?_
  refine bind_shift offset rfl fun forces => ?_
  rfl

theorem checkListed_shift (model : Model κ) (seen : List String) (coordinates : List Coordinate) :
    (shift offset model).checkListed seen (coordinates.map (shift offset)) =
      shift offset (model.checkListed seen coordinates) := by
  induction coordinates generalizing seen with
  | nil => rfl
  | cons coordinate rest ih =>
      have known : (model.coordinates.find? coordinate.name).map (shift offset) ≠
          some (shift offset coordinate) ↔
            model.coordinates.find? coordinate.name ≠ some coordinate := by
        cases model.coordinates.find? coordinate.name <;> simp
      simp only [List.map_cons, checkListed, shift_coordinates, Coordinate.shift_name, find?_named,
        known, ih]
      rw [shift_ite, shift_ite]
      rfl

theorem reducedMotion_shift (model : Model κ) (coordinates : List Coordinate) (motion : Motion κ) :
    (shift offset model).reducedMotion (coordinates.map (shift offset)) (shift offset motion) =
      shift offset (model.reducedMotion coordinates motion) := by
  have independent : (coordinates.map (shift offset)).filter (fun coordinate =>
      !(shift offset model).isClosed coordinate) =
        (coordinates.filter fun coordinate => !model.isClosed coordinate).map (shift offset) := by
    rw [List.filter_map]
    simp [Function.comp_def]
  unfold reducedMotion
  simp only [shift_dynamics, shift_option, Option.isSome_map, Motion.fault?_shift, List.length_map]
  refine guard_shift offset rfl ?_
  cases motion.fault? coordinates.length with
  | some fault => rfl
  | none =>
      refine bind_shift offset (checkListed_shift model [] coordinates) fun _ => ?_
      rw [independent]
      refine bind_shift offset (accelerationMap_shift model coordinates _) fun maps => ?_
      simp only [shift_pair, Motion.reduce_shift, mapError_shift]
      exact bind_shift offset rfl fun reduced => rfl

theorem reduceDynamics_conforms (coordinates : List Coordinate) (motion : Motion κ) :
    Conforms offset (reduceDynamics (coordinates.map (shift offset)) (shift offset motion))
      (reduceDynamics coordinates motion) := by
  refine Action.getModel_conforms fun model _ => ?_
  rw [reducedMotion_shift]
  cases model.reducedMotion coordinates motion with
  | error error => exact Conforms.throw error
  | ok reduced =>
      obtain ⟨independent, reduced⟩ := reduced
      refine (define_conforms reduced.mass _ _).bind fun mass => ?_
      refine (define_conforms reduced.bias _ _).bind fun bias => ?_
      refine (define_conforms reduced.forces _ _).bind fun forces => ?_
      refine Conforms.bind (Action.modifyModel_conforms (fun _ => rfl) fun _ => rfl) fun _ => ?_
      exact Conforms.pure (⟨independent, mass, bias, forces⟩ : Dynamics)

theorem valueOf_conforms :
    Conforms offset (valueOf (shift offset symbol) : Action κ (Tensor κ)) (valueOf symbol) :=
  declareCoordinates_conforms.bind fun _ => verifyLoops_conforms.bind fun _ =>
    Action.onGraph_conforms (Graph.valueOf_conforms symbol)

theorem numbersOf_conforms :
    Conforms offset (numbersOf (shift offset symbol) : Action κ (Option (List κ)))
      (numbersOf symbol) :=
  declareCoordinates_conforms.bind fun _ => verifyLoops_conforms.bind fun _ =>
    Action.onGraph_conforms (Graph.numbersOf_conforms symbol)

theorem build_conforms :
    Conforms offset (build : Action κ (Option Graph.BuildReport)) build := by
  refine declareCoordinates_conforms.bind fun _ => ?_
  refine Action.getModel_conforms fun model _ => ?_
  rw [shift_graph, Graph.shift_built]
  split
  · exact .pure none
  · exact (Action.onGraph_conforms Graph.build_conforms).bind fun report => .pure (some report)

theorem generate_conforms :
    Conforms offset (generate categories : Action κ (EquationList κ)) (generate categories) := by
  refine build_conforms.bind fun _ => ?_
  refine Action.getModel_conforms fun model _ => ?_
  rw [shift_graph, Graph.extract_shift]
  cases model.graph.extract categories .none with
  | ok equations => exact .pure equations
  | error error => exact Conforms.throw (ModelError.graph error)

theorem reduce_conforms :
    Conforms offset (reduce categories : Action κ Graph.Reduction) (reduce categories) :=
  build_conforms.bind fun _ => Action.onGraph_conforms (Graph.keepOnly_conforms categories)

end Model

end Mechanism
