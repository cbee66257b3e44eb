import Mechanism.Proofs.Script.Formulas

/-!
Calls on graphs, chains, loops and models, and what they answer. What a call puts into a graph comes
to hand: the symbols of definitions, the equations of lists, the matrices of loops. Nothing that is
answered depends on the numbers of symbols.
-/

namespace Mechanism

namespace Script

variable {κ : Type} [Scalar κ] {offset : Nat}

namespace Desk

def pickSome {α : Type} (read : Item κ → Option α) : Option Handle → Desk κ (Option α)
  | none => return none
  | some handle => do return some (← pick read handle)

def keepEquations (equations : List (Equation κ)) (told : Json) : Desk κ (Reply κ) := do
  keepAll (equations.flatMap fun equation => [.symbol equation.symbol, .tensor equation.value])
  return ⟨told, []⟩

def keepArtifacts [ScalarText κ] (artifacts : Loop.Artifacts κ) : Desk κ (Reply κ) := do
  keepAll [.tensor artifacts.constraint]
  keepSymbols artifacts.symbols
  return ⟨artifacts.describe, []⟩

def keepCoordinate (coordinate : Coordinate) : Desk κ (Reply κ) := do
  keepAll [.coordinate coordinate, .symbol coordinate.position, .symbol coordinate.velocity,
    .symbol coordinate.acceleration]
  return ⟨.text coordinate.name, []⟩

theorem pickSome_conforms {α : Type} [Numbered α] {read : Item κ → Option α}
    (same : ∀ item, read (shift offset item) = (read item).map (shift offset))
    (handle : Option Handle) :
    Conforms offset (pickSome read handle : Desk κ _) (pickSome read handle) := by
  cases handle with
  | none => exact .pure none
  | some handle => exact (pick_conforms same handle).bind fun found => .pure (some found)

theorem keepEquations_conforms (equations : List (Equation κ)) (told : Json) :
    Conforms offset (keepEquations (equations.map (shift offset)) told)
      (keepEquations equations told) := by
  have items : (equations.map (shift offset)).flatMap (fun equation =>
      [.symbol equation.symbol, .tensor equation.value]) =
        (equations.flatMap fun equation =>
          ([.symbol equation.symbol, .tensor equation.value] : List (Item κ))).map (shift offset) :=
    flatMap_shift offset equations fun _ _ => rfl
  unfold keepEquations
  rw [items]
  refine (keepAll_conforms fun item member => ?_).bind fun _ => .answer _
  obtain ⟨equation, _, rfl | rfl⟩ : ∃ equation ∈ equations,
      item = .symbol equation.symbol ∨ item = .tensor equation.value := by simpa using member
  · trivial
  · trivial

theorem keepArtifacts_conforms [ScalarText κ] (artifacts : Loop.Artifacts κ) :
    Conforms offset (keepArtifacts (shift offset artifacts)) (keepArtifacts artifacts) := by
  have fair : ∀ item ∈ [Item.tensor artifacts.constraint], item.Fair := by simp [Item.Fair]
  refine (keepAll_conforms fair).bind fun _ => (keepSymbols_conforms artifacts.symbols).bind fun _ => ?_
  exact .returns (congrArg (Reply.mk · []) (Loop.Artifacts.describe_shift offset artifacts))

theorem keepCoordinate_conforms (coordinate : Coordinate) :
    Conforms offset (keepCoordinate (shift offset coordinate) : Desk κ _)
      (keepCoordinate coordinate) := by
  have fair : ∀ item ∈ ([.coordinate coordinate, .symbol coordinate.position,
      .symbol coordinate.velocity, .symbol coordinate.acceleration] : List (Item κ)), item.Fair := by
    simp [Item.Fair]
  exact (keepAll_conforms fair).bind fun _ => .answer _

end Desk

open Desk

def done : Reply κ := ⟨.null, []⟩

inductive GraphCall where
  | declareInput (symbol : Handle) (categories : CategorySet) (initial : Option Handle)
  | register (name : String) (symbol value : Handle) (categories : CategorySet)
  | define (name : String) (value : Handle) (categories : CategorySet)
  | bind (symbol value : Handle)
  | valueOf (symbol : Handle)
  | numbersOf (symbol : Handle)
  | build
  | reduce (kept : CategorySet)
  | extract (output excluded : CategorySet)
  | inspect (symbol : Handle)
  | equations

def GraphCall.perform [ScalarText κ] (graph : Handle) : GraphCall → Desk κ (Reply κ)
  | declareInput symbol categories initial => do
    let symbol ← pick Item.symbol? symbol
    let initial ← pickSome Item.tensor? initial
    onGraph graph (Graph.declareInput symbol categories initial)
    return done
  | register name symbol value categories => do
    let symbol ← pick Item.symbol? symbol
    let value ← pick Item.tensor? value
    keep (.symbol (← onGraph graph (Graph.register name symbol value categories)))
  | define name value categories => do
    let value ← pick Item.tensor? value
    keep (.symbol (← onGraph graph (Graph.define name value categories)))
  | bind symbol value => do
    let symbol ← pick Item.symbol? symbol
    let value ← pick Item.tensor? value
    onGraph graph (Graph.Action.update (Graph.bindInput symbol value))
    return done
  | valueOf symbol => do
    let symbol ← pick Item.symbol? symbol
    keep (.tensor (← onGraph graph (Graph.valueOf symbol)))
  | numbersOf symbol => do
    let symbol ← pick Item.symbol? symbol
    return ofNumbers? (← onGraph graph (Graph.numbersOf symbol))
  | build => do return ⟨(← onGraph graph Graph.build).toJson, []⟩
  | reduce kept => do return ⟨(← onGraph graph (Graph.keepOnly kept)).toJson, []⟩
  | extract output excluded => do
    let graph ← pick Item.graph? graph
    let list ← orRefuse Refusal.ofGraph (graph.extract output excluded)
    keepEquations list.equations list.describe
  | inspect symbol => do
    let graph ← pick Item.graph? graph
    let symbol ← pick Item.symbol? symbol
    return ⟨graph.inspect symbol, []⟩
  | equations => do
    let graph ← pick Item.graph? graph
    keepEquations graph.equations graph.describe

theorem GraphCall.perform_conforms [ScalarText κ] (graph : Handle) (call : GraphCall) :
    Conforms offset (call.perform graph : Desk κ _) (call.perform graph) := by
  cases call with
  | declareInput symbol categories initial =>
      refine (symbol_conforms symbol).bind fun symbol => ?_
      refine (pickSome_conforms (Item.tensor?_shift offset) initial).bind fun initial => ?_
      refine (onGraph_conforms graph
        (Graph.declareInput_conforms symbol categories initial)).bind fun _ => ?_
      exact .answer done
  | register name symbol value categories =>
      refine (symbol_conforms symbol).bind fun symbol => (tensor_conforms value).bind fun value => ?_
      exact (onGraph_conforms graph
        (Graph.register_conforms symbol value categories name)).bind keepSymbol_conforms
  | define name value categories =>
      refine (tensor_conforms value).bind fun value => ?_
      exact (onGraph_conforms graph
        (Graph.define_conforms value categories name)).bind keepSymbol_conforms
  | bind symbol value =>
      refine (symbol_conforms symbol).bind fun symbol => (tensor_conforms value).bind fun value => ?_
      exact (onGraph_conforms graph (Graph.bindInput_conforms symbol value)).bind fun _ => .answer done
  | valueOf symbol =>
      refine (symbol_conforms symbol).bind fun symbol => ?_
      exact (onGraph_conforms graph (Graph.valueOf_conforms symbol)).bind keepTensor_conforms
  | numbersOf symbol =>
      refine (symbol_conforms symbol).bind fun symbol => ?_
      refine (onGraph_conforms graph (Graph.numbersOf_conforms symbol)).bind fun numbers => ?_
      exact .returns (by simp)
  | build =>
      exact (onGraph_conforms graph Graph.build_conforms).bind fun report => .answer _
  | reduce kept =>
      exact (onGraph_conforms graph (Graph.keepOnly_conforms kept)).bind fun report => .answer _
  | extract output excluded =>
      refine (graph_conforms graph).bind fun graph => ?_
      refine (orRefuse_conforms (Refusal.ofGraph_shift offset)
        (Graph.extract_shift offset graph output excluded)).bind fun list => ?_
      rw [EquationList.describe_shift]
      exact keepEquations_conforms list.equations list.describe
  | inspect symbol =>
      refine (graph_conforms graph).bind fun graph => (symbol_conforms symbol).bind fun symbol => ?_
      exact .returns (by simp)
  | equations =>
      refine (graph_conforms graph).bind fun graph => ?_
      rw [Graph.describe_shift, Graph.equations_shift]
      exact keepEquations_conforms graph.equations graph.describe

structure JointForm (κ : Type) [Scalar κ] where
  name : String
  motion : Motion κ
  coordinate : Handle
  parent : Option JointId
  anchor : Handle

def JointForm.make (form : JointForm κ) : Desk κ (Joint κ) := do
  let coordinate ← pick Item.coordinate? form.coordinate
  let anchor ← pick Item.tensor? form.anchor
  return ⟨form.name, form.motion, coordinate, form.parent, anchor⟩

theorem JointForm.make_conforms (form : JointForm κ) : Conforms offset form.make form.make := by
  refine (coordinate_conforms form.coordinate).bind fun coordinate => ?_
  refine (tensor_conforms form.anchor).bind fun anchor => ?_
  exact .pure (⟨form.name, form.motion, coordinate, form.parent, anchor⟩ : Joint κ)

structure FrameForm where
  name : String
  body : Option JointId
  position : Handle

def FrameForm.make (form : FrameForm) : Desk κ (Frame κ) := do
  return ⟨form.name, form.body, ← pick Item.tensor? form.position⟩

theorem FrameForm.make_conforms (form : FrameForm) :
    Conforms offset (form.make : Desk κ _) form.make :=
  (tensor_conforms form.position).bind fun position =>
    .pure (⟨form.name, form.body, position⟩ : Frame κ)

inductive TopologyForm (κ : Type) where
  | fourBar (posture : Loop.Posture)
  | fourBarTrans
  | threeBarTrans
  | crankSlider (posture : Loop.Posture)
  | steering (posture : Loop.Posture)
  | hexapod
  | hexapodWithOffset
  | transmission (ratio : κ)
  | explicitJoint (expr : Handle)

def TopologyForm.make : TopologyForm κ → Desk κ (Loop.Topology κ)
  | fourBar posture => return .fourBar posture
  | fourBarTrans => return .fourBarTrans
  | threeBarTrans => return .threeBarTrans
  | crankSlider posture => return .crankSlider posture
  | steering posture => return .steering posture
  | hexapod => return .hexapod
  | hexapodWithOffset => return .hexapodWithOffset
  | transmission ratio => return .transmission ratio
  | explicitJoint expr => do return .explicitJoint (← pick Item.expr? expr)

theorem TopologyForm.make_conforms (form : TopologyForm κ) :
    Conforms offset form.make form.make := by
  cases form with
  | explicitJoint expr => exact (expr_conforms expr).bind fun expr => .returns rfl
  | _ => exact .returns rfl

structure RequestForm (κ : Type) where
  name : String
  topology : TopologyForm κ
  frameA : FrameForm
  frameB : FrameForm
  independent : List JointId
  dependent : List JointId

def RequestForm.make (form : RequestForm κ) : Desk κ (Loop.Request κ) := do
  let topology ← form.topology.make
  let frameA ← form.frameA.make
  let frameB ← form.frameB.make
  return ⟨form.name, topology, frameA, frameB, form.independent, form.dependent⟩

theorem RequestForm.make_conforms (form : RequestForm κ) : Conforms offset form.make form.make :=
  form.topology.make_conforms.bind fun topology => form.frameA.make_conforms.bind fun frameA =>
    form.frameB.make_conforms.bind fun frameB =>
      .pure (⟨form.name, topology, frameA, frameB, form.independent, form.dependent⟩ : Loop.Request κ)

inductive ChainCall (κ : Type) [Scalar κ] where
  | add (joint : JointForm κ)
  | path (body : Option JointId)
  | branches (a b : Option JointId)
  | find (name : String)
  | positionOf (branch : List JointId) (frame : FrameForm)

def ChainCall.perform [ScalarText κ] (chain : Handle) : ChainCall κ → Desk κ (Reply κ)
  | add joint => do
    let joint ← joint.make
    let before ← pick Item.chain? chain
    let (id, after) ← ofChain (before.add joint)
    put chain (.chain after)
    return ⟨.text id.text, []⟩
  | path body => do
    let chain ← pick Item.chain? chain
    return ⟨JointId.listJson (← ofChain (chain.path body)), []⟩
  | branches a b => do
    let chain ← pick Item.chain? chain
    let (branchA, branchB) ← ofChain (chain.branches a b)
    return ⟨.list [JointId.listJson branchA, JointId.listJson branchB], []⟩
  | find name => do
    let chain ← pick Item.chain? chain
    return ⟨.orNull ((chain.find? name).map (.text ·.text)), []⟩
  | positionOf branch frame => do
    let chain ← pick Item.chain? chain
    let frame ← frame.make
    keep (.tensor (← ofChain (chain.positionOf branch frame)))

theorem ChainCall.perform_conforms [ScalarText κ] (chain : Handle) (call : ChainCall κ) :
    Conforms offset (call.perform chain) (call.perform chain) := by
  cases call with
  | add joint =>
      refine joint.make_conforms.bind fun joint => (chain_conforms chain).bind fun before => ?_
      refine (ofChain_conforms (Chain.add_shift offset before joint)).bind fun (id, after) => ?_
      have fair : (Item.chain after).Fair := trivial
      exact (put_conforms fair chain).bind fun _ => .answer _
  | path body =>
      refine (chain_conforms chain).bind fun chain => ?_
      refine (ofChain_conforms (Chain.path_shift offset chain body)).bind fun path => ?_
      exact .returns (by simp)
  | branches a b =>
      refine (chain_conforms chain).bind fun chain => ?_
      refine (ofChain_conforms (Chain.branches_shift offset chain a b)).bind fun (a, b) => ?_
      exact .returns (by simp)
  | find name => exact (chain_conforms chain).bind fun chain => .returns (by simp)
  | positionOf branch frame =>
      refine (chain_conforms chain).bind fun chain => frame.make_conforms.bind fun frame => ?_
      exact (ofChain_conforms (Chain.positionOf_shift offset chain branch frame)).bind
        keepTensor_conforms

namespace Desk

variable [ScalarText κ]

/-- A loop is closed as far as it goes: the loop and the graph keep what has been done. -/
def close (loop graph : Handle) : Desk κ (Reply κ) := do
  let descriptor ← pick Item.loop? loop
  let before ← pick Item.graph? graph
  let stock ← get
  let attempt := descriptor.close ⟨before, stock.supply⟩
  put loop (.loop attempt.descriptor)
  let session := attempt.session
  keepArtifacts
    (← settle Refusal.ofLoop graph (.graph session.graph) session.supply attempt.outcome)

theorem close_conforms (loop graph : Handle) :
    Conforms offset (close loop graph : Desk κ _) (close loop graph) := by
  refine (loop_conforms loop).bind fun descriptor => ?_
  refine pick_bind (Item.graph?_shift offset) graph fun item before fair found => ?_
  refine .get_bind fun stock blind => ?_
  have working : Blind (⟨before, stock.supply⟩ : Graph.Session κ) := Item.fair_of_graph? found fair
  obtain ⟨closed, later⟩ := descriptor.close_shift offset working
  have moved : (shift offset descriptor).close ⟨shift offset before, (shift offset stock).supply⟩ =
      shift offset (descriptor.close ⟨before, stock.supply⟩) := closed
  rw [moved]
  generalize descriptor.close ⟨before, stock.supply⟩ = attempt at later ⊢
  have done : (Item.loop attempt.descriptor).Fair := trivial
  have kept : (Item.graph attempt.session.graph).Fair := later
  refine (put_conforms done loop).bind fun _ => ?_
  exact (settle_conforms (Refusal.ofLoop_shift offset) graph kept attempt.session.supply
    attempt.outcome).bind keepArtifacts_conforms

end Desk

inductive ModelCall (κ : Type) [Scalar κ] where
  | parameter (name : String) (value : Handle)
  | input (name : String) (shape : Shape) (categories : CategorySet)
  | coordinate (name : String)
  | joint (joint : JointForm κ)
  | register (name : String) (symbol value : Handle) (categories : CategorySet)
  | define (name : String) (value : Handle) (categories : CategorySet)
  | registerLoop (request : RequestForm κ)
  | reduceDynamics (coordinates : List Handle) (mass bias forces : Handle)
  | bind (symbol value : Handle)
  | valueOf (symbol : Handle)
  | numbersOf (symbol : Handle)
  | build
  | reduce (kept : CategorySet)
  | generate (output : CategorySet)
  | inspect (symbol : Handle)
  | equations
  | artifacts (loop : String)

def ModelCall.perform [ScalarText κ] (model : Handle) : ModelCall κ → Desk κ (Reply κ)
  | parameter name value => do
    let value ← pick Item.tensor? value
    keep (.symbol (← onModel model (Model.parameter name value)))
  | input name shape categories => do
    keep (.symbol (← onModel model (Model.input name shape categories)))
  | coordinate name => do keepCoordinate (← onModel model (Model.addCoordinate name))
  | .joint form => do
    let joint ← form.make
    return ⟨.text (← onModel model (Model.addJoint joint)).text, []⟩
  | register name symbol value categories => do
    let symbol ← pick Item.symbol? symbol
    let value ← pick Item.tensor? value
    keep (.symbol (← onModel model (Model.registerExpression name symbol value categories)))
  | define name value categories => do
    let value ← pick Item.tensor? value
    keep (.symbol (← onModel model (Model.define name value categories)))
  | registerLoop request => do
    let request ← request.make
    keepArtifacts (← onModel model (Model.registerLoop request))
  | reduceDynamics coordinates mass bias forces => do
    let coordinates ← pickAll Item.coordinate? coordinates
    let mass ← pick Item.tensor? mass
    let bias ← pick Item.tensor? bias
    let forces ← pick Item.tensor? forces
    let dynamics ← onModel model (Model.reduceDynamics coordinates ⟨mass, bias, forces⟩)
    keepSymbols [dynamics.mass, dynamics.bias, dynamics.forces]
    return ⟨Coordinate.namesJson dynamics.independent, []⟩
  | bind symbol value => do
    let symbol ← pick Item.symbol? symbol
    let value ← pick Item.tensor? value
    onModel model (Model.changeValue symbol value)
    return done
  | valueOf symbol => do
    let symbol ← pick Item.symbol? symbol
    keep (.tensor (← onModel model (Model.valueOf symbol)))
  | numbersOf symbol => do
    let symbol ← pick Item.symbol? symbol
    return ofNumbers? (← onModel model (Model.numbersOf symbol))
  | build => do
    let report ← onModel model Model.build
    return ⟨.orNull (report.map Graph.BuildReport.toJson), []⟩
  | reduce kept => do return ⟨(← onModel model (Model.reduce kept)).toJson, []⟩
  | generate output => do
    let list ← onModel model (Model.generate output)
    keepEquations list.equations list.describe
  | inspect symbol => do
    let model ← pick Item.model? model
    let symbol ← pick Item.symbol? symbol
    return ⟨model.graph.inspect symbol, []⟩
  | equations => do
    let model ← pick Item.model? model
    keepEquations model.graph.equations model.graph.describe
  | artifacts loop => do
    let model ← pick Item.model? model
    match model.artifacts? loop with
    | none => return done
    | some found => keepArtifacts found

theorem ModelCall.perform_conforms [ScalarText κ] (model : Handle) (call : ModelCall κ) :
    Conforms offset (call.perform model) (call.perform model) := by
  cases call with
  | parameter name value =>
      refine (tensor_conforms value).bind fun value => ?_
      exact (onModel_conforms model (Model.parameter_conforms value name)).bind keepSymbol_conforms
  | input name shape categories =>
      exact (onModel_conforms model (Model.input_conforms categories name shape)).bind
        keepSymbol_conforms
  | coordinate name =>
      exact (onModel_conforms model (Model.addCoordinate_conforms name)).bind keepCoordinate_conforms
  | joint form =>
      refine form.make_conforms.bind fun joint => ?_
      exact (onModel_conforms model (Model.addJoint_conforms joint)).bind fun id => .answer _
  | register name symbol value categories =>
      refine (symbol_conforms symbol).bind fun symbol => (tensor_conforms value).bind fun value => ?_
      exact (onModel_conforms model
        (Model.registerExpression_conforms symbol value categories name)).bind keepSymbol_conforms
  | define name value categories =>
      refine (tensor_conforms value).bind fun value => ?_
      exact (onModel_conforms model (Model.define_conforms value categories name)).bind
        keepSymbol_conforms
  | registerLoop request =>
      refine request.make_conforms.bind fun request => ?_
      exact (onModel_conforms model (Model.registerLoop_conforms request)).bind
        keepArtifacts_conforms
  | reduceDynamics coordinates mass bias forces =>
      refine (pickAll_conforms (Item.coordinate?_shift offset) coordinates).bind fun coordinates => ?_
      refine (tensor_conforms mass).bind fun mass => (tensor_conforms bias).bind fun bias => ?_
      refine (tensor_conforms forces).bind fun forces => ?_
      refine (onModel_conforms model
        (Model.reduceDynamics_conforms coordinates ⟨mass, bias, forces⟩)).bind fun dynamics => ?_
      refine (keepSymbols_conforms [dynamics.mass, dynamics.bias, dynamics.forces]).bind fun _ => ?_
      exact .returns (congrArg (Reply.mk · [])
        (Coordinate.namesJson_shift offset dynamics.independent))
  | bind symbol value =>
      refine (symbol_conforms symbol).bind fun symbol => (tensor_conforms value).bind fun value => ?_
      exact (onModel_conforms model (Model.changeValue_conforms symbol value)).bind fun _ =>
        .answer done
  | valueOf symbol =>
      refine (symbol_conforms symbol).bind fun symbol => ?_
      exact (onModel_conforms model (Model.valueOf_conforms symbol)).bind keepTensor_conforms
  | numbersOf symbol =>
      refine (symbol_conforms symbol).bind fun symbol => ?_
      refine (onModel_conforms model (Model.numbersOf_conforms symbol)).bind fun numbers => ?_
      exact .returns (by simp)
  | build =>
      exact (onModel_conforms model Model.build_conforms).bind fun report => .returns (by simp)
  | reduce kept =>
      exact (onModel_conforms model (Model.reduce_conforms kept)).bind fun report => .answer _
  | generate output =>
      refine (onModel_conforms model (Model.generate_conforms output)).bind fun list => ?_
      rw [EquationList.describe_shift]
      exact keepEquations_conforms list.equations list.describe
  | inspect symbol =>
      refine (model_conforms model).bind fun model => (symbol_conforms symbol).bind fun symbol => ?_
      exact .returns (by simp)
  | equations =>
      refine (model_conforms model).bind fun model => ?_
      rw [Model.shift_graph, Graph.describe_shift, Graph.equations_shift]
      exact keepEquations_conforms model.graph.equations model.graph.describe
  | artifacts loop =>
      refine (model_conforms model).bind fun model => ?_
      rw [Model.artifacts?_shift]
      cases model.artifacts? loop with
      | none => exact .answer done
      | some found => exact keepArtifacts_conforms found

end Script

end Mechanism
