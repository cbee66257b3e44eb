import Mechanism.Expr.Reading

/-!
Scalars, columns and matrices of expressions. Entries are kept row by row; operations that join
two tensors check their shapes and name both in the error.
-/

namespace Mechanism

inductive TensorOperation where
  | add | sub | matmul | dot | cross | vstack | jacobian | determinant | inverse
  deriving DecidableEq, Repr

def TensorOperation.name : TensorOperation → String
  | add => "add"
  | sub => "sub"
  | matmul => "matmul"
  | dot => "dot"
  | cross => "cross"
  | vstack => "vstack"
  | jacobian => "jacobian"
  | determinant => "determinant"
  | inverse => "inverse"

inductive AlgebraError where
  | shapeMismatch (operation : TensorOperation) (left right : Shape)
  | outOfBounds (row column : Nat) (shape : Shape)
  | notScalar (name : String) (shape : Shape)
  | entryCount (expected found : Nat)
  | singular
  | tooLarge (operation : TensorOperation) (dimension : Nat)
  deriving DecidableEq, Repr

namespace AlgebraError

def message : AlgebraError → String
  | shapeMismatch operation left right =>
    "shape mismatch in " ++ operation.name ++ ": " ++ left.text ++ " vs " ++ right.text
  | outOfBounds row column shape =>
    "index (" ++ toString row ++ ", " ++ toString column ++ ") out of bounds for " ++ shape.text
  | notScalar name shape => name ++ " is not a scalar (shape " ++ shape.text ++ ")"
  | entryCount expected found =>
    "expected " ++ toString expected ++ " elements, found " ++ toString found
  | singular => "matrix is structurally singular"
  | tooLarge operation dimension =>
    operation.name ++ " does not support dimension " ++ toString dimension

end AlgebraError

structure Tensor (κ : Type) [Scalar κ] where
  shape : Shape
  entries : List (Expr κ)

namespace Tensor

variable {κ : Type} [Scalar κ]

instance : DecidableEq (Tensor κ) := fun left right =>
  decidable_of_iff (left.shape = right.shape ∧ left.entries = right.entries) (by
    cases left; cases right; simp)

def rows (tensor : Tensor κ) : Nat := tensor.shape.rows

def columns (tensor : Tensor κ) : Nat := tensor.shape.columns

def length (tensor : Tensor κ) : Nat := tensor.entries.length

/-- As many entries as the shape has places, and a shape that its dimensions determine. -/
structure WellShaped (tensor : Tensor κ) : Prop where
  length_eq : tensor.length = tensor.rows * tensor.columns
  shape_eq : tensor.shape = Shape.ofDimensions tensor.rows tensor.columns

def ofExpr (expr : Expr κ) : Tensor κ := ⟨.scalar, [expr]⟩

def ofColumn (entries : List (Expr κ)) : Tensor κ := ⟨Shape.column entries.length, entries⟩

def matrix (rows columns : Nat) (entries : List (Expr κ)) : Except AlgebraError (Tensor κ) :=
  if entries.length = rows * columns then .ok ⟨Shape.ofDimensions rows columns, entries⟩
  else .error (.entryCount (rows * columns) entries.length)

def ofRows (lines : List (List (Expr κ))) : Except AlgebraError (Tensor κ) :=
  let width := (lines.head?.map List.length).getD 0
  match lines.find? fun line => line.length != width with
  | some line => .error (.entryCount width line.length)
  | none => matrix lines.length width lines.flatten

def ofSymbol (symbol : Symbol) : Tensor κ := ⟨symbol.shape, symbol.atoms.map .atom⟩

def map (change : Expr κ → Expr κ) (tensor : Tensor κ) : Tensor κ :=
  ⟨tensor.shape, tensor.entries.map change⟩

def mapM? {ε : Type} (change : Expr κ → Except ε (Expr κ)) (tensor : Tensor κ) :
    Except ε (Tensor κ) := do
  let entries ← tensor.entries.mapM change
  return ⟨tensor.shape, entries⟩

def entry (tensor : Tensor κ) (row column : Nat) : Except AlgebraError (Expr κ) :=
  match tensor.shape.contains row column, tensor.entries[tensor.shape.flatIndex row column]? with
  | true, some expr => .ok expr
  | _, _ => .error (.outOfBounds row column tensor.shape)

def entryAt (tensor : Tensor κ) (index : Nat) : Except AlgebraError (Expr κ) :=
  let (row, column) := tensor.shape.place index
  tensor.entry row column

def toExpr (tensor : Tensor κ) : Except AlgebraError (Expr κ) :=
  match tensor.shape, tensor.entries with
  | .scalar, expr :: _ => .ok expr
  | shape, _ => .error (.notScalar "value" shape)

def atoms (tensor : Tensor κ) : List Atom :=
  Grouping.distinct (tensor.entries.flatMap Expr.atoms)

def symbols (tensor : Tensor κ) : List Symbol :=
  Grouping.distinct (tensor.atoms.map Atom.symbol)

def numbers? (tensor : Tensor κ) : Option (List κ) := tensor.entries.mapM Expr.asNumber?

def operations (tensor : Tensor κ) : Nat := total (tensor.entries.map Expr.operations)

def substitute (replacement : Atom → Option (Expr κ)) (tensor : Tensor κ) : Tensor κ :=
  tensor.map (Expr.substitute replacement)

def evaluate (assignment : Atom → Option κ) (tensor : Tensor κ) : Option (List κ) :=
  tensor.entries.mapM (Expr.evaluate assignment)

def aliasTarget? (tensor : Tensor κ) : Option Symbol := do
  let first ← tensor.entries.head?
  let atom ← first.asAtom?
  if tensor = ofSymbol atom.symbol then some atom.symbol else none

def ofNumbers (shape : Shape) (values : List κ) : Except AlgebraError (Tensor κ) :=
  matrix shape.rows shape.columns (values.map .number)

def zeros (rows columns : Nat) : Tensor κ :=
  ⟨Shape.ofDimensions rows columns, List.replicate (rows * columns) .zero⟩

def identity (size : Nat) : Tensor κ :=
  ⟨Shape.ofDimensions size size,
    (List.range (size * size)).map fun index =>
      if index / size = index % size then .one else .zero⟩

end Tensor

namespace Symbol

variable {κ : Type} [Scalar κ]

def toExpr (symbol : Symbol) : Except AlgebraError (Expr κ) :=
  if symbol.shape.isScalar then .ok (.atom (.whole symbol))
  else .error (.notScalar symbol.name symbol.shape)

def entry (symbol : Symbol) (row column : Nat) : Except AlgebraError (Expr κ) :=
  if symbol.shape.contains row column then .ok (.atom (symbol.atomAt row column))
  else .error (.outOfBounds row column symbol.shape)

def entryAt (symbol : Symbol) (index : Nat) : Except AlgebraError (Expr κ) :=
  let (row, column) := symbol.shape.place index
  symbol.entry row column

end Symbol

end Mechanism
