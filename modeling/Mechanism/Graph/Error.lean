import Mechanism.Category
import Mechanism.Expr.Text
import Mechanism.Tensor.Basic

/-!
What can be wrong with a registration, a build or a query of a graph. Every cause names the
symbols and expressions that it is about.
-/

namespace Mechanism

namespace Graph

inductive Role (κ : Type) [Scalar κ] where
  | input
  | inputOf (categories : CategorySet)
  | expression (name : String)
  | definition (name : String) (entries : List (Expr κ))

end Graph

inductive GraphError (κ : Type) [Scalar κ] where
  | duplicateSymbol (symbol : String) (existing requested : Graph.Role κ)
  | unboundSymbol (symbol expression : String)
  | cyclicDependency (symbols : List String)
  | noMatchingCategory (categories : CategorySet)
  | emptyCategory (expression : String)
  | shapeMismatch (symbol : String) (expected found : Shape)
  | unknownSymbol (symbol : String)
  | notAnInput (symbol : String)
  | notBuilt
  | invalidSettings (reason : String)
  | algebra (error : AlgebraError)

variable {κ : Type} [Scalar κ] [ScalarText κ]

def Graph.Role.text : Graph.Role κ → String
  | .input => "input"
  | .inputOf categories => "input " ++ categories.text
  | .expression name => "expression " ++ name
  | .definition name entries =>
    name ++ " = [" ++ String.intercalate ", " (entries.map Expr.text) ++ "]"

def GraphError.message : GraphError κ → String
  | .duplicateSymbol symbol existing requested =>
    "symbol " ++ symbol ++ " is already defined (" ++ existing.text ++ "); cannot redefine as " ++
      requested.text
  | .unboundSymbol symbol expression =>
    "expression " ++ expression ++ " references unbound symbol " ++ symbol
  | .cyclicDependency symbols => "cyclic dependency: " ++ String.intercalate " -> " symbols
  | .noMatchingCategory categories => "no expression matches categories " ++ categories.text
  | .emptyCategory expression => "expression " ++ expression ++ " has no category"
  | .shapeMismatch symbol expected found =>
    "shape mismatch for " ++ symbol ++ ": expected " ++ expected.text ++ ", found " ++ found.text
  | .unknownSymbol symbol => "unknown symbol: " ++ symbol
  | .notAnInput symbol => symbol ++ " is not a declared input"
  | .notBuilt => "graph has not been built"
  | .invalidSettings reason => "invalid graph configuration: " ++ reason
  | .algebra error => error.message

end Mechanism
