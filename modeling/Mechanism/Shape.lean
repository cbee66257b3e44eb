/-!
The dimensions of symbols and tensors. A column of one entry is a scalar, and a matrix of one
column is a vector, so equal dimensions have one shape.
-/

namespace Mechanism

inductive Shape where
  | scalar
  | vector (length : Nat)
  | matrix (rows columns : Nat)
  deriving DecidableEq, Hashable, Repr

namespace Shape

def ofDimensions : Nat → Nat → Shape
  | 1, 1 => scalar
  | rows, 1 => vector rows
  | rows, columns => matrix rows columns

def column (length : Nat) : Shape := ofDimensions length 1

def rows : Shape → Nat
  | scalar => 1
  | vector length => length
  | matrix rows _ => rows

def columns : Shape → Nat
  | scalar => 1
  | vector _ => 1
  | matrix _ columns => columns

def size (shape : Shape) : Nat := shape.rows * shape.columns

def isScalar (shape : Shape) : Bool := shape == scalar

def isColumn (shape : Shape) : Bool := shape.columns == 1

def text : Shape → String
  | scalar => "Scalar"
  | vector length => s!"Vector<{length}>"
  | matrix rows columns => s!"Matrix<{rows}x{columns}>"

@[simp] theorem rows_ofDimensions (rows columns : Nat) :
    (ofDimensions rows columns).rows = rows := by
  unfold ofDimensions; split <;> rfl

@[simp] theorem columns_ofDimensions (rows columns : Nat) :
    (ofDimensions rows columns).columns = columns := by
  unfold ofDimensions; split <;> rfl

@[simp] theorem size_ofDimensions (rows columns : Nat) :
    (ofDimensions rows columns).size = rows * columns := by
  simp [size]

def flatIndex (shape : Shape) (row column : Nat) : Nat := row * shape.columns + column

def place (shape : Shape) (index : Nat) : Nat × Nat :=
  let width := max shape.columns 1
  (index / width, index % width)

def contains (shape : Shape) (row column : Nat) : Bool :=
  row < shape.rows && column < shape.columns

def places (shape : Shape) : List (Nat × Nat) :=
  (List.range shape.rows).flatMap fun row =>
    (List.range shape.columns).map fun column => (row, column)

end Shape

end Mechanism
