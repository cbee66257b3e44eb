import Mechanism.Expr.Text
import Mechanism.Graph.Build
import Mechanism.Graph.Extraction
import Mechanism.Json.Basic

/-!
Equations as documents, in the form in which other programs read them. Expressions are given by
their texts and symbols by their names.
-/

namespace Mechanism

def Shape.toJson : Shape → Json
  | .scalar => .text "Scalar"
  | .vector length => .object [("Vector", .object [("dim", .nat length)])]
  | .matrix rows columns =>
    .object [("Matrix", .object [("rows", .nat rows), ("cols", .nat columns)])]

def Domain.name : Domain → String
  | .real => "Real"
  | .nonNegative => "NonNegative"
  | .positive => "Positive"

def Domain.ofName? (word : String) : Option Domain :=
  [.real, .nonNegative, .positive].find? fun domain => domain.name == word

def Symbol.toJson (symbol : Symbol) : Json :=
  .object [("name", .text symbol.name), ("shape", symbol.shape.toJson),
    ("domain", .text symbol.domain.name)]

def CategorySet.toJson (set : CategorySet) : Json := .texts (set.members.map Category.name)

variable {κ : Type} [Scalar κ] [ScalarText κ]

def Expr.toJson (expr : Expr κ) : Json := .text expr.text

def Tensor.toJson (tensor : Tensor κ) : Json :=
  .object [("shape", tensor.shape.toJson), ("elements", .list (tensor.entries.map Expr.toJson))]

def Equation.toJson (equation : Equation κ) : Json :=
  .object [("name", .text equation.name), ("symbol", .text equation.symbol.name),
    ("value", equation.value.toJson), ("categories", equation.categories.toJson)]

def ExternalInput.toJson (input : ExternalInput) : Json :=
  .object [("symbol", .text input.symbol.name), ("shape", input.shape.toJson),
    ("categories", input.categories.toJson)]

def EquationList.toJson (list : EquationList κ) : Json :=
  .object [("equations", .list (list.equations.map Equation.toJson)),
    ("inputs", .list (list.inputs.map ExternalInput.toJson))]

def Graph.BuildReport.toJson (report : Graph.BuildReport) : Json :=
  .object [("nodes", .nat report.nodes), ("levels", .nat report.levels),
    ("operations_before", .nat report.operationsBefore),
    ("operations_after", .nat report.operationsAfter),
    ("simplification_failures", .nat report.simplificationFailures),
    ("duplicates_folded", .nat report.duplicatesFolded), ("temporaries", .nat report.temporaries),
    ("aliases_removed", .nat report.aliasesRemoved)]

def Graph.Reduction.toJson (reduction : Graph.Reduction) : Json :=
  .object [("kept", .nat reduction.kept), ("removed", .nat reduction.removed)]

end Mechanism
