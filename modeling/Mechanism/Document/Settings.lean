import Mechanism.Json.Writer
import Mechanism.Model.Basic

/-!
Settings as documents. A field that is missing takes its standard value and an unknown one is
ignored; a field of the wrong form makes the whole document unreadable.
-/

namespace Mechanism

namespace Json

def fieldOr {α : Type} (json : Json) (name : String) (standard : α) (read : Json → Option α) :
    Option α :=
  match json.field? name with
  | none => some standard
  | some value => read value

def bool? : Json → Option Bool
  | bool value => some value
  | _ => none

def isObject : Json → Bool
  | object _ => true
  | _ => false

def part? (json : Json) (name : String) : Option Json :=
  json.fieldOr name (object []) fun part => if part.isObject then some part else none

end Json

def Graph.Settings.ofJson? (json : Json) : Option Graph.Settings := do
  let standard := Graph.Settings.standard
  let optimize ← json.fieldOr "optimize" standard.optimize Json.bool?
  let shareCommon ← json.fieldOr "eliminate_common_subexpressions" standard.shareCommon Json.bool?
  let minOccurrences ← json.fieldOr "min_occurrences" standard.minOccurrences Json.nat?
  let parallel ← json.fieldOr "parallel" standard.parallel Json.bool?
  return ⟨optimize, shareCommon, minOccurrences, parallel⟩

def Graph.Settings.toJson (settings : Graph.Settings) : Json :=
  .object [("optimize", .bool settings.optimize),
    ("eliminate_common_subexpressions", .bool settings.shareCommon),
    ("min_occurrences", .nat settings.minOccurrences), ("parallel", .bool settings.parallel)]

def Loop.Settings.ofJson? (json : Json) : Option (Loop.Settings Float) := do
  let standard : Loop.Settings Float := .standard
  let checkSingularity ← json.fieldOr "check_singularity" standard.checkSingularity Json.bool?
  let tolerance ← json.fieldOr "singularity_tolerance" standard.tolerance Json.double?
  return ⟨checkSingularity, tolerance⟩

def Loop.Settings.fields (settings : Loop.Settings Float) : List (String × Json) :=
  [("check_singularity", .bool settings.checkSingularity),
    ("singularity_tolerance", .ofDouble settings.tolerance)]

def Model.Settings.ofJson? (json : Json) : Option (Model.Settings Float) := do
  let graph ← Graph.Settings.ofJson? (← json.part? "graph")
  let loops ← Loop.Settings.ofJson? (← json.part? "loops")
  return ⟨graph, loops⟩

end Mechanism
