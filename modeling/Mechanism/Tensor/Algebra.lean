import Mechanism.Expr.Derivative
import Mechanism.Tensor.Basic

/-!
Sums, products and rearrangements of tensors, and their Jacobians.
-/

namespace Mechanism.Tensor

variable {κ : Type} [Scalar κ]

structure Grid (κ : Type) [Scalar κ] where
  shape : Shape
  table : Array (Expr κ)

def grid (tensor : Tensor κ) : Grid κ := ⟨tensor.shape, tensor.entries.toArray⟩

def Grid.entry (grid : Grid κ) (row column : Nat) : Expr κ :=
  (grid.table[grid.shape.flatIndex row column]?).getD .zero

def build (rows columns : Nat) (entryOf : Nat → Nat → Expr κ) : Tensor κ :=
  ⟨Shape.ofDimensions rows columns,
    (List.range rows).flatMap fun row => (List.range columns).map fun column => entryOf row column⟩

def transpose (tensor : Tensor κ) : Tensor κ :=
  let grid := tensor.grid
  build tensor.columns tensor.rows fun row column => grid.entry column row

def zipWith (operation : TensorOperation) (combine : Expr κ → Expr κ → Expr κ)
    (left right : Tensor κ) : Except AlgebraError (Tensor κ) :=
  if left.shape = right.shape then
    .ok ⟨left.shape, List.zipWith combine left.entries right.entries⟩
  else .error (.shapeMismatch operation left.shape right.shape)

def sumEntries (left right : Tensor κ) : Tensor κ :=
  ⟨left.shape, List.zipWith (· + ·) left.entries right.entries⟩

def add (left right : Tensor κ) : Except AlgebraError (Tensor κ) := zipWith .add (· + ·) left right

def sub (left right : Tensor κ) : Except AlgebraError (Tensor κ) := zipWith .sub (· - ·) left right

def scale (tensor : Tensor κ) (factor : Expr κ) : Tensor κ := tensor.map (· * factor)

def negate (tensor : Tensor κ) : Tensor κ := tensor.map (-·)

/-- Rows of the left operand times columns of the right one, for operands that fit. -/
def multiply (left right : Tensor κ) : Tensor κ :=
  let leftGrid := left.grid
  let rightGrid := right.grid
  build left.rows right.columns fun row column =>
    Expr.sum ((List.range left.columns).map fun inner =>
      leftGrid.entry row inner * rightGrid.entry inner column)

def matmul (left right : Tensor κ) : Except AlgebraError (Tensor κ) :=
  if left.shape.isScalar then .ok (right.scale (left.grid.entry 0 0))
  else if right.shape.isScalar then .ok (left.scale (right.grid.entry 0 0))
  else if left.columns ≠ right.rows then .error (.shapeMismatch .matmul left.shape right.shape)
  else .ok (left.multiply right)

def dot (left right : Tensor κ) : Except AlgebraError (Expr κ) :=
  if left.shape.isColumn && left.shape == right.shape then
    .ok (Expr.sum (List.zipWith (· * ·) left.entries right.entries))
  else .error (.shapeMismatch .dot left.shape right.shape)

def norm (tensor : Tensor κ) : Except AlgebraError (Expr κ) :=
  (tensor.dot tensor).map Expr.squareRoot

def cross (left right : Tensor κ) : Except AlgebraError (Tensor κ) :=
  match left.entries, right.entries with
  | [a, b, c], [x, y, z] =>
    if left.shape = .vector 3 ∧ right.shape = .vector 3 then
      .ok (ofColumn [b * z - c * y, c * x - a * z, a * y - b * x])
    else .error (.shapeMismatch .cross left.shape right.shape)
  | _, _ => .error (.shapeMismatch .cross left.shape right.shape)

def vstack : List (Tensor κ) → Except AlgebraError (Tensor κ)
  | [] => .ok (zeros 0 1)
  | first :: rest =>
    match rest.find? fun part => part.columns != first.columns with
    | some part => .error (.shapeMismatch .vstack first.shape part.shape)
    | none =>
      let parts := first :: rest
      .ok ⟨Shape.ofDimensions (total (parts.map rows)) first.columns, parts.flatMap Tensor.entries⟩

def select (tensor : Tensor κ) (indices : List Nat) : Except AlgebraError (Tensor κ) := do
  let entries ← indices.mapM tensor.entryAt
  return ofColumn entries

def columnRange (tensor : Tensor κ) (first last : Nat) : Except AlgebraError (Tensor κ) :=
  if tensor.columns < last || last < first then .error (.outOfBounds 0 last tensor.shape)
  else
    let grid := tensor.grid
    .ok (build tensor.rows (last - first) fun row column => grid.entry row (first + column))

def jacobian (tensor : Tensor κ) (unknowns : List Atom) : Except AlgebraError (Tensor κ) :=
  if tensor.shape.isColumn then
    .ok ⟨Shape.ofDimensions tensor.length unknowns.length,
      tensor.entries.flatMap fun expr => unknowns.map fun unknown => expr.derivative unknown⟩
  else .error (.shapeMismatch .jacobian tensor.shape (Shape.column unknowns.length))

end Mechanism.Tensor
