import Mechanism.Document.Equations
import Mechanism.Document.Settings
import Mechanism.Proofs.Numbering.Model

/-!
Documents about what a program has at hand. They say all that can be read off it, but for the
numbers of its symbols, and say the same when these are moved.
-/

namespace Mechanism

/-- What is told to a program: a document, and numbers in full. -/
structure Reply (κ : Type) where
  document : Json
  numbers : List κ

structure Refusal where
  kind : String
  message : String

section Definitions

variable {κ : Type} [Scalar κ] [ScalarText κ]

def Symbol.namesJson (symbols : List Symbol) : Json := .texts (symbols.map Symbol.name)

def Coordinate.namesJson (coordinates : List Coordinate) : Json :=
  .texts (coordinates.map Coordinate.name)

def JointId.listJson (ids : List JointId) : Json := .texts (ids.map JointId.text)

namespace Expr

def kind : Expr κ → String
  | num _ => "number"
  | atom _ => "atom"
  | add _ => "add"
  | mul _ => "mul"
  | pow .. => "pow"
  | call function _ => function.name
  | angle .. => "atan2"
  | cond relation .. => "if " ++ relation.mark

def hashJson (expr : Expr κ) : Json := .text (Fingerprint.render expr.fingerprint)

def describe (expr : Expr κ) : Json :=
  .object [("text", expr.toJson), ("hash", expr.hashJson), ("kind", .text expr.kind),
    ("ops", .nat expr.operations), ("children", .list (expr.children.map toJson)),
    ("hashes", .list (expr.children.map hashJson)), ("atoms", .texts (expr.atoms.map Atom.text)),
    ("symbols", Symbol.namesJson expr.symbols), ("zero", .bool expr.isZero),
    ("one", .bool expr.isOne), ("leaf", .bool expr.isLeaf),
    ("number", .bool expr.asNumber?.isSome), ("rest", expr.splitCoefficient.2.toJson)]

def reply (expr : Expr κ) : Reply κ :=
  ⟨expr.describe, expr.asNumber?.toList ++ [expr.splitCoefficient.1]⟩

end Expr

namespace Tensor

def describe (tensor : Tensor κ) : Json :=
  .object [("value", tensor.toJson), ("text", .text tensor.shape.text), ("ops", .nat tensor.operations),
    ("hashes", .list (tensor.entries.map Expr.hashJson)),
    ("atoms", .texts (tensor.atoms.map Atom.text)), ("symbols", Symbol.namesJson tensor.symbols),
    ("numeric", .bool tensor.numbers?.isSome),
    ("alias", .orNull (tensor.aliasTarget?.map Symbol.toJson))]

def reply (tensor : Tensor κ) : Reply κ := ⟨tensor.describe, tensor.numbers?.getD []⟩

end Tensor

namespace EquationList

def describe (list : EquationList κ) : Json :=
  let symbols := list.equations.map Equation.symbol
  .object [("list", list.toJson), ("len", .nat list.length),
    ("positions", .list (symbols.map fun symbol => .orNull ((list.position? symbol).map .nat))),
    ("names", .list (symbols.map fun symbol =>
      .orNull ((list.find? symbol).map fun equation => .text equation.name)))]

end EquationList

namespace Graph

def bindingJson (graph : Graph κ) (symbol : Symbol) : Json :=
  .orNull ((graph.store.binding? symbol).map Tensor.toJson)

def cachedJson (graph : Graph κ) (symbol : Symbol) : Json :=
  .orNull ((graph.store.cachedRevision? symbol).map .nat)

def inspect (graph : Graph κ) (symbol : Symbol) : Json :=
  .object [("input", .bool (graph.isInput symbol)), ("defined", .bool (graph.isDefined symbol)),
    ("expression", .orNull ((graph.equation? symbol).map Equation.toJson)),
    ("cached", graph.cachedJson symbol), ("binding", graph.bindingJson symbol)]

def describe (graph : Graph κ) : Json :=
  .object [("config", graph.settings.toJson), ("built", .bool graph.built),
    ("len", .nat graph.size), ("levels", .list (graph.levelSymbols.map Symbol.namesJson)),
    ("order", Symbol.namesJson graph.order),
    ("inputs", .list (graph.inputs.entries.map fun (symbol, categories) =>
      .texts [symbol.name, categories.text])),
    ("bound", .list (graph.inputs.keys.map graph.bindingJson)),
    ("expressions", .list (graph.equations.map Equation.toJson)),
    ("cached", .list (graph.equations.map fun equation => graph.cachedJson equation.symbol)),
    ("revision", .nat graph.store.revision), ("evaluations", .nat graph.store.evaluations)]

end Graph

def Motion.describe : Motion κ → Reply κ
  | .revolute axis => ⟨.text axis.name, []⟩
  | .prismatic direction => ⟨.null, direction.toList⟩

namespace Chain

def jointJson (chain : Chain κ) (joint : Joint κ) : Json :=
  .object [("name", .text joint.name), ("kind", joint.motion.describe.document),
    ("coord", .text joint.coordinate.name), ("parent", .orNull (joint.parent.map (.text ·.text))),
    ("at", joint.anchor.toJson), ("id", .orNull ((chain.find? joint.name).map (.text ·.text)))]

def reply (chain : Chain κ) : Reply κ :=
  ⟨.list (chain.joints.map chain.jointJson),
    chain.joints.flatMap fun joint => joint.motion.describe.numbers⟩

end Chain

namespace Loop

def Artifacts.describe (artifacts : Artifacts κ) : Json :=
  .object [("independent", Coordinate.namesJson artifacts.independent),
    ("dependent", Coordinate.namesJson artifacts.dependent),
    ("constraint", artifacts.constraint.toJson),
    ("symbols", .list (artifacts.symbols.map Symbol.toJson)),
    ("v", Symbol.namesJson artifacts.positions)]

def Descriptor.describe (descriptor : Descriptor κ) : Json :=
  .object [("name", .text descriptor.name),
    ("topology", .text descriptor.problem.request.topology.name),
    ("state", .text descriptor.progress.name),
    ("artifacts", .orNull (descriptor.artifacts?.map Artifacts.describe))]

end Loop

namespace Model

def describe (model : Model κ) : Json :=
  .object [("graph", model.graph.describe), ("chain", model.chain.reply.document),
    ("coordinates", Coordinate.namesJson model.allCoordinates),
    ("independent", Coordinate.namesJson model.independentCoordinates)]

end Model

def AlgebraError.kind : AlgebraError → String
  | .shapeMismatch .. => "Symbolic.ShapeMismatch"
  | .outOfBounds .. => "Symbolic.IndexOutOfBounds"
  | .notScalar .. => "Symbolic.NotScalar"
  | .entryCount .. => "Symbolic.ElementCount"
  | .singular => "Symbolic.Singular"
  | .tooLarge .. => "Symbolic.DimensionTooLarge"

def GraphError.kind : GraphError κ → String
  | .duplicateSymbol .. => "Graph.DuplicateSymbol"
  | .unboundSymbol .. => "Graph.UnboundSymbol"
  | .cyclicDependency .. => "Graph.CyclicDependency"
  | .noMatchingCategory .. => "Graph.NoMatchingCategory"
  | .emptyCategory .. => "Graph.EmptyCategory"
  | .shapeMismatch .. => "Graph.ShapeMismatch"
  | .unknownSymbol .. => "Graph.UnknownSymbol"
  | .notAnInput .. => "Graph.NotAnInput"
  | .notBuilt => "Graph.NotBuilt"
  | .invalidSettings .. => "Graph.InvalidConfig"
  | .algebra error => "Graph>" ++ error.kind

def LoopError.kind : LoopError κ → String
  | .worldConnection .. => "Loop.DirectWorldConnection"
  | .unsupportedTopology .. => "Loop.UnsupportedTopology"
  | .singularity .. => "Loop.KinematicSingularity"
  | .chain _ => "Loop.InvalidChain"
  | .invalidSettings _ => "Loop.InvalidConfig"
  | .graph error => "Loop>" ++ error.kind
  | .algebra error => "Loop>" ++ error.kind

def ModelError.kind : ModelError κ → String
  | .duplicateCoordinate _ => "Model.DuplicateCoordinate"
  | .unknownCoordinate _ => "Model.UnknownCoordinate"
  | .unknownJoint _ => "Model.UnknownJoint"
  | .duplicateLoop _ => "Model.DuplicateLoop"
  | .coordinateConflict .. => "Model.CoordinateConflict"
  | .dynamics _ => "Model.Dynamics"
  | .invalidSettings _ => "Model.InvalidConfig"
  | .graph error => "Model>" ++ error.kind
  | .loop error => "Model>" ++ error.kind
  | .algebra error => "Model>" ++ error.kind

namespace Refusal

def ofAlgebra (error : AlgebraError) : Refusal := ⟨error.kind, error.message⟩

def ofSimplifier (error : SimplifyError) : Refusal := ⟨"Simplify", error.message⟩

def ofGraph (error : GraphError κ) : Refusal := ⟨error.kind, error.message⟩

def ofLoop (error : LoopError κ) : Refusal := ⟨error.kind, error.message⟩

def ofModel (error : ModelError κ) : Refusal := ⟨error.kind, error.message⟩

end Refusal

end Definitions

instance {κ : Type} : Numbered (Reply κ) := ⟨fun _ => id⟩
instance {κ : Type} : Plain (Reply κ) := ⟨fun _ => rfl⟩
instance : Numbered Json := ⟨fun _ => id⟩
instance : Plain Json := ⟨fun _ => rfl⟩
instance : Numbered Refusal := ⟨fun _ => id⟩
instance : Plain Refusal := ⟨fun _ => rfl⟩

section Invariance

variable {κ : Type} [Scalar κ] [ScalarText κ] (offset : Nat)

@[simp] theorem Symbol.toJson_shift (symbol : Symbol) :
    (shift offset symbol).toJson = symbol.toJson := rfl

@[simp] theorem Symbol.namesJson_shift (symbols : List Symbol) :
    namesJson (symbols.map (shift offset)) = namesJson symbols := by
  simp [namesJson, Function.comp_def]

@[simp] theorem Coordinate.namesJson_shift (coordinates : List Coordinate) :
    namesJson (coordinates.map (shift offset)) = namesJson coordinates := by
  simp [namesJson, Function.comp_def]

namespace Expr

variable (expr : Expr κ)

@[simp] theorem toJson_shift : (shift offset expr).toJson = expr.toJson := by
  simp [toJson]

omit [ScalarText κ] in
@[simp] theorem hashJson_shift : (shift offset expr).hashJson = expr.hashJson := by
  simp [hashJson]

omit [ScalarText κ] in
@[simp] theorem kind_shift : (shift offset expr).kind = expr.kind := by
  cases expr <;> simp [kind]

@[simp] theorem reply_shift : (shift offset expr).reply = expr.reply := by
  simp [reply, describe, Function.comp_def]

end Expr

namespace Tensor

variable (tensor : Tensor κ)

@[simp] theorem toJson_shift : (shift offset tensor).toJson = tensor.toJson := by
  simp [toJson, Function.comp_def]

@[simp] theorem reply_shift : (shift offset tensor).reply = tensor.reply := by
  simp [reply, describe, Function.comp_def]

end Tensor

@[simp] theorem Equation.toJson_shift (equation : Equation κ) :
    (shift offset equation).toJson = equation.toJson := by
  simp [toJson]

@[simp] theorem ExternalInput.toJson_shift (input : ExternalInput) :
    (shift offset input).toJson = input.toJson := rfl

@[simp] theorem EquationList.describe_shift (list : EquationList κ) :
    (shift offset list).describe = list.describe := by
  simp [describe, toJson, Function.comp_def]

namespace Graph

variable (graph : Graph κ) (symbol : Symbol)

@[simp] theorem bindingJson_shift :
    (shift offset graph).bindingJson (shift offset symbol) = graph.bindingJson symbol := by
  simp [bindingJson, Function.comp_def]

omit [ScalarText κ] in
@[simp] theorem cachedJson_shift :
    (shift offset graph).cachedJson (shift offset symbol) = graph.cachedJson symbol := by
  simp [cachedJson]

@[simp] theorem inspect_shift :
    (shift offset graph).inspect (shift offset symbol) = graph.inspect symbol := by
  simp [inspect, Function.comp_def]

@[simp] theorem describe_shift : (shift offset graph).describe = graph.describe := by
  simp [describe, Function.comp_def]

end Graph

@[simp] theorem Chain.reply_shift (chain : Chain κ) : (shift offset chain).reply = chain.reply := by
  have joints : (chain.joints.map (shift offset)).flatMap (fun joint => joint.motion.describe.numbers) =
      chain.joints.flatMap fun joint => joint.motion.describe.numbers := by
    rw [List.flatMap_map]
    rfl
  simp [reply, jointJson, Function.comp_def, joints]

namespace Loop

@[simp] theorem Artifacts.describe_shift (artifacts : Artifacts κ) :
    (shift offset artifacts).describe = artifacts.describe := by
  obtain ⟨independent, dependent, constraint, _, _, _, _, _, _⟩ := artifacts
  change Artifacts.describe ⟨independent.map (shift offset), dependent.map (shift offset),
    shift offset constraint, _, _, _, _, _, _⟩ = _
  simp [describe, symbols, positions, Symbol.namesJson, Function.comp_def]

@[simp] theorem Descriptor.describe_shift (descriptor : Descriptor κ) :
    (shift offset descriptor).describe = descriptor.describe := by
  simp [describe, Function.comp_def]

end Loop

@[simp] theorem Model.describe_shift (model : Model κ) :
    (shift offset model).describe = model.describe := by
  simp [describe]

omit [ScalarText κ] in
@[simp] theorem GraphError.kind_shift (error : GraphError κ) :
    (shift offset error).kind = error.kind := by
  cases error <;> rfl

omit [ScalarText κ] in
@[simp] theorem LoopError.kind_shift (error : LoopError κ) :
    (shift offset error).kind = error.kind := by
  cases error with
  | graph error => exact congrArg ("Loop>" ++ ·) (GraphError.kind_shift offset error)
  | _ => rfl

omit [ScalarText κ] in
@[simp] theorem ModelError.kind_shift (error : ModelError κ) :
    (shift offset error).kind = error.kind := by
  cases error with
  | graph error => exact congrArg ("Model>" ++ ·) (GraphError.kind_shift offset error)
  | loop error => exact congrArg ("Model>" ++ ·) (LoopError.kind_shift offset error)
  | _ => rfl

namespace Refusal

@[simp] theorem ofGraph_shift (error : GraphError κ) :
    ofGraph (shift offset error) = ofGraph error := by
  simp [ofGraph]

@[simp] theorem ofLoop_shift (error : LoopError κ) : ofLoop (shift offset error) = ofLoop error := by
  simp [ofLoop]

@[simp] theorem ofModel_shift (error : ModelError κ) :
    ofModel (shift offset error) = ofModel error := by
  simp [ofModel]

end Refusal

end Invariance

end Mechanism
