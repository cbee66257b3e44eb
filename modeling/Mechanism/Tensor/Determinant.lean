import Mechanism.Tensor.Algebra
import Std.Data.DHashMap

/-!
Determinants by expansion along the first row, and inverses as adjugate over determinant.

A minor is named by its rows and columns. The expansion of a determinant meets most of its minors
many times, and the cofactors of an inverse have most of theirs in common, so the minors already
known are kept in a table, each together with the proof that it is the one that its key names.
-/

namespace Mechanism.Tensor

variable {κ : Type} [Scalar κ]

def largestSquare : Nat := 63

def signOf (positive : Bool) : κ := if positive then 1 else -1

def alternately {α β : Type} (contribution : Bool → α → Option β) : Bool → List α → List β
  | _, [] => []
  | positive, item :: items =>
    (contribution positive item).toList ++ alternately contribution (!positive) items

/-- The determinant of the chosen rows and columns of a matrix, which is given by its entries
other than zero. -/
def minor (entryOf : Nat → Nat → Option (Expr κ)) : List Nat → List Nat → Expr κ
  | [], _ => .one
  | row :: rows, columns =>
    Expr.sum (alternately (fun positive column =>
      (entryOf row column).map fun entry =>
        Expr.product [.number (signOf positive), entry, minor entryOf rows (columns.erase column)])
      true columns)

/-- Rows and columns, with a word by which most choices are told apart. -/
structure Choice where
  word : UInt64
  rows : List Nat
  columns : List Nat
  deriving DecidableEq

namespace Choice

def bits (items : List Nat) : UInt64 :=
  items.foldl (fun word item => word ||| ((1 : UInt64) <<< item.toUInt64)) 0

def ofLists (rows columns : List Nat) : Choice :=
  ⟨mixHash (bits rows) (bits columns), rows, columns⟩

instance : Hashable Choice := ⟨word⟩

end Choice

abbrev Minor (entryOf : Nat → Nat → Option (Expr κ)) (rows columns : List Nat) : Type :=
  { expr : Expr κ // expr = minor entryOf rows columns }

abbrev Minors (entryOf : Nat → Nat → Option (Expr κ)) : Type :=
  Std.DHashMap Choice fun choice => Minor entryOf choice.rows choice.columns

namespace Minors

variable {entryOf : Nat → Nat → Option (Expr κ)}

/-- The terms of an expansion along a row, given how the minors below it are found. -/
def expand (row : Nat) (rows columns : List Nat)
    (find : (columns : List Nat) → Minors entryOf → Minor entryOf rows columns × Minors entryOf) :
    (positive : Bool) → (items : List Nat) → Minors entryOf →
      { terms : List (Expr κ) // terms = alternately (fun positive column =>
          (entryOf row column).map fun entry => Expr.product
            [.number (signOf positive), entry, minor entryOf rows (columns.erase column)])
          positive items } × Minors entryOf
  | _, [], known => (⟨[], rfl⟩, known)
  | positive, column :: items, known =>
    match present : entryOf row column with
    | none =>
      let (⟨terms, terms_eq⟩, known) := expand row rows columns find (!positive) items known
      (⟨terms, by simp [alternately, present, terms_eq]⟩, known)
    | some entry =>
      let (⟨below, below_eq⟩, known) := find (columns.erase column) known
      let (⟨terms, terms_eq⟩, known) := expand row rows columns find (!positive) items known
      (⟨Expr.product [.number (signOf positive), entry, below] :: terms, by
        simp [alternately, present, terms_eq, below_eq]⟩, known)

/-- The minor of the chosen rows and columns, looked up or else computed and kept. -/
def find : (rows columns : List Nat) → Minors entryOf →
    Minor entryOf rows columns × Minors entryOf
  | [], _, known => (⟨.one, rfl⟩, known)
  | row :: rows, columns, known =>
    let choice := Choice.ofLists (row :: rows) columns
    match known.get? choice with
    | some found => (found, known)
    | none =>
      let (⟨terms, terms_eq⟩, known) := expand row rows columns (find rows) true columns known
      let found : Minor entryOf (row :: rows) columns := ⟨Expr.sum terms, by rw [terms_eq, minor]⟩
      (found, known.insert choice found)

def findAll : (choices : List (List Nat × List Nat)) → Minors entryOf →
    { exprs : List (Expr κ) // exprs = choices.map fun chosen => minor entryOf chosen.1 chosen.2 }
  | [], _ => ⟨[], rfl⟩
  | (rows, columns) :: choices, known =>
    let (⟨first, first_eq⟩, known) := find rows columns known
    let ⟨rest, rest_eq⟩ := findAll choices known
    ⟨first :: rest, by rw [first_eq, rest_eq, List.map_cons]⟩

end Minors

structure Support (κ : Type) [Scalar κ] where
  columns : Nat
  table : Array (Option (Expr κ))

def support (tensor : Tensor κ) : Support κ where
  columns := tensor.columns
  table := (tensor.entries.map fun entry => if entry.isZero then none else some entry).toArray

def Support.entry (support : Support κ) (row column : Nat) : Option (Expr κ) :=
  (support.table[row * support.columns + column]?).join

def squareSize (operation : TensorOperation) (tensor : Tensor κ) : Except AlgebraError Nat :=
  if tensor.rows ≠ tensor.columns then .error (.shapeMismatch operation tensor.shape tensor.shape)
  else if largestSquare < tensor.rows then .error (.tooLarge operation tensor.rows)
  else .ok tensor.rows

def determinant (tensor : Tensor κ) : Except AlgebraError (Expr κ) := do
  let size ← squareSize .determinant tensor
  let all := List.range size
  let support := tensor.support
  return (Minors.find all all (∅ : Minors support.entry)).1

theorem determinant_eq (tensor : Tensor κ) :
    tensor.determinant = (do
      let size ← squareSize .determinant tensor
      return minor tensor.support.entry (List.range size) (List.range size)) := by
  simp only [determinant, (Minors.find _ _ _).1.2]

def squarePlaces (size : Nat) : List (Nat × Nat) :=
  (List.range size).flatMap fun row => (List.range size).map fun column => (row, column)

/-- The cofactor of an entry, divided by the determinant, stands at the mirrored place. -/
def inverse (tensor : Tensor κ) : Except AlgebraError (Tensor κ) := do
  let size ← squareSize .inverse tensor
  let all := List.range size
  let support := tensor.support
  let (whole, known) := Minors.find all all (∅ : Minors support.entry)
  if whole.1.isZero then throw .singular
  let factor := whole.1.reciprocal
  let places := squarePlaces size
  let cofactors := Minors.findAll
    (places.map fun (row, column) => (all.erase column, all.erase row)) known
  return ⟨Shape.ofDimensions size size,
    List.zipWith (fun (row, column) cofactor =>
      Expr.product [.number (signOf ((row + column) % 2 = 0)), cofactor, factor])
      places cofactors.1⟩

theorem inverse_eq (tensor : Tensor κ) :
    tensor.inverse = (do
      let size ← squareSize .inverse tensor
      let all := List.range size
      let minorOf := minor tensor.support.entry
      if (minorOf all all).isZero then throw .singular
      return build size size fun row column =>
        Expr.product [.number (signOf ((row + column) % 2 = 0)),
          minorOf (all.erase column) (all.erase row), (minorOf all all).reciprocal]) := by
  unfold inverse
  congr 1
  funext size
  have whole := (Minors.find (List.range size) (List.range size)
    (∅ : Minors tensor.support.entry)).1.2
  simp only [whole, (Minors.findAll _ _).2, List.map_map, List.zipWith_map_right, List.zipWith_self]
  simp only [squarePlaces, List.map_flatMap, List.map_map]
  rfl

end Mechanism.Tensor
