import Mechanism.Expr.Atoms
import Mechanism.Expr.Canonical
import Mechanism.Expr.Fold

/-!
What is read off an expression node by node: what becomes of it when expressions are substituted
for atoms, its numeric value, and how many operations it takes.

Each of the three follows from the operands of a node, by `replace`, `valueAt` and `operationsAt`.
-/

namespace Mechanism

def total : List Nat → Nat
  | [] => 0
  | head :: tail => head + total tail

namespace Expr

variable {κ : Type} [Scalar κ]

/-- What becomes of a node whose operands have become the given ones: an atom for which there is
a replacement is replaced, and any other node is built again. -/
def replace (replacement : Atom → Option (Expr κ)) (expr : Expr κ) (operands : List (Expr κ)) :
    Expr κ :=
  match expr with
  | atom symbol => (replacement symbol).getD expr
  | _ => expr.rebuild operands

/-- Each atom for which there is a replacement is replaced, and what contains it is built again. -/
def substitute (replacement : Atom → Option (Expr κ)) (expr : Expr κ) : Expr κ :=
  fold (replace replacement) expr

theorem substitute_eq (replacement : Atom → Option (Expr κ)) (expr : Expr κ) :
    expr.substitute replacement =
      replace replacement expr (expr.children.map (substitute replacement)) :=
  fold_eq (replace replacement) expr

def combineAll (combine : κ → κ → κ) (start : κ) (values : List (Option κ)) : Option κ :=
  values.foldlM (fun result value => value.map (combine result)) start

/-- The value of a node whose operands have the given values. A choice needs only the branch that
is taken. -/
def valueAt (assignment : Atom → Option κ) (expr : Expr κ) (values : List (Option κ)) : Option κ :=
  match expr, values with
  | num value, _ => some value
  | atom symbol, _ => assignment symbol
  | add _, _ => combineAll (· + ·) 0 values
  | mul _, _ => combineAll (· * ·) 1 values
  | pow .., [base, exponent] => do
    let b ← base
    let e ← exponent
    Scalar.power b e
  | call function _, [argument] => do
    let value ← argument
    Scalar.apply function value
  | angle .., [y, x] => do
    let ordinate ← y
    let abscissa ← x
    some (Scalar.angle ordinate abscissa)
  | cond relation .., [left, right, chosen, otherwise] => do
    let l ← left
    let r ← right
    if relation.holds l r then chosen else otherwise
  | _, _ => none

/-- The value under an assignment of numbers to atoms; none if an atom that is read has no number
or an operation no value. -/
def evaluate (assignment : Atom → Option κ) (expr : Expr κ) : Option κ :=
  fold (valueAt assignment) expr

theorem evaluate_eq (assignment : Atom → Option κ) (expr : Expr κ) :
    expr.evaluate assignment =
      valueAt assignment expr (expr.children.map (evaluate assignment)) :=
  fold_eq (valueAt assignment) expr

def operationsAt (expr : Expr κ) (below : List Nat) : Nat :=
  match expr with
  | num _ => 0
  | atom _ => 0
  | add terms => terms.length - 1 + total below
  | mul factors => factors.length - 1 + total below
  | _ => 1 + total below

/-- How many additions, multiplications and other operations it takes to evaluate the tree, a
part being counted as often as it occurs. -/
def operations (expr : Expr κ) : Nat := fold operationsAt expr

theorem operations_eq (expr : Expr κ) :
    expr.operations = operationsAt expr (expr.children.map operations) :=
  fold_eq operationsAt expr

end Expr

end Mechanism
