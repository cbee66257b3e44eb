import Mechanism.Tensor.Basic

/-!
Simplifiers: functions on expressions that keep the value, and may refuse an expression that is
too large. The basic one replaces `a * sin(x)^2 + a * cos(x)^2` by `a` at every level of a tree.
-/

namespace Mechanism

structure SimplifyError where
  reason : String
  deriving DecidableEq, Repr

def SimplifyError.message (error : SimplifyError) : String :=
  "cannot simplify expression: " ++ error.reason

abbrev Simplifier (κ : Type) [Scalar κ] := Expr κ → Except SimplifyError (Expr κ)

namespace Simplifier

variable {κ : Type} [Scalar κ]

def keep : Simplifier κ := .ok

def onTensor (simplifier : Simplifier κ) (tensor : Tensor κ) : Except SimplifyError (Tensor κ) :=
  tensor.mapM? simplifier

def isTwo (expr : Expr κ) : Bool :=
  expr.asNumber?.any fun value => Scalar.isEqual value (Scalar.ofInt 2)

def squaredSine? : Expr κ → Option (Expr κ)
  | .pow (.call .sin argument) exponent => if isTwo exponent then some argument else none
  | _ => none

def factorsOf (term : Expr κ) : List (Expr κ) :=
  match term with
  | .mul operands => operands
  | _ => [term]

/-- A factor `sin(x)^2` of the term, taken out, and the same term with `cos(x)^2` in its place:
the remaining factors and that partner. -/
def partners (term : Expr κ) : List (List (Expr κ) × Expr κ) :=
  let operands := factorsOf term
  operands.zipIdx.filterMap fun (factor, index) =>
    (squaredSine? factor).map fun argument =>
      let rest := operands.eraseIdx index
      (rest, Expr.product (rest ++ [argument.cos.square]))

/-- The first pair of terms that add up, without the pair and with its sum at the end. -/
def collectOnce? (terms : List (Expr κ)) : Option (List (Expr κ)) :=
  terms.zipIdx.findSome? fun (term, index) =>
    (partners term).findSome? fun (rest, partner) =>
      match terms.findIdx? (· == partner) with
      | none => none
      | some other =>
        let remaining := (terms.eraseIdx (max index other)).eraseIdx (min index other)
        some (remaining ++ [Expr.product rest])

/-- Every step removes two terms and adds one, so as many steps as terms suffice. -/
def collectWith : Nat → List (Expr κ) → List (Expr κ)
  | 0, terms => terms
  | fuel + 1, terms =>
    match collectOnce? terms with
    | some fewer => collectWith fuel fewer
    | none => terms

def collect (expr : Expr κ) : Expr κ :=
  match expr with
  | .add terms => Expr.sum (collectWith terms.length terms)
  | _ => expr

/-- Collects from the leaves up: a node is built again from collected operands, and is collected
itself if that makes it a sum. -/
def collectIn (expr : Expr κ) : Expr κ :=
  Expr.fold (fun node operands => collect (node.rebuild operands)) expr

theorem collectIn_eq (expr : Expr κ) :
    collectIn expr = collect (expr.rebuild (expr.children.map collectIn)) :=
  Expr.fold_eq _ expr

def defaultLimit : Nat := 250000

def basic (limit : Nat := defaultLimit) : Simplifier κ := fun expr =>
  let operations := expr.operations
  if limit < operations then
    .error ⟨toString operations ++ " operations exceeds limit of " ++ toString limit⟩
  else .ok (collectIn expr)

end Simplifier

end Mechanism
