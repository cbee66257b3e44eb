import Mathlib.Data.Matrix.Mul
import Mechanism.Proofs.Expr.Substitution
import Mechanism.Proofs.Tensor.Algebra

/-!
Real values of the entries of tensors, and tensors that hold the values of real matrices. A column of
one entry and a matrix with one entry are scalars, which scale the other operand of a product; either
way the product holds the product of the matrices.

The numbers of a tensor, read off its entries or computed from them.
-/

namespace Mechanism

namespace Tensor

variable {κ : Type} [Scalar κ] [Exact κ]

/-- The entry at a position has the given value. -/
def MeansAt (environment : Environment) (tensor : Tensor κ) (index : Nat) (value : ℝ) : Prop :=
  ∃ entry, tensor.entryAt index = .ok entry ∧ entry.Means environment value

theorem MeansAt.lt_size {environment : Environment} {tensor : Tensor κ} {index : Nat} {value : ℝ}
    (means : tensor.MeansAt environment index value) : index < tensor.shape.size := by
  obtain ⟨entry, found, _⟩ := means
  exact (entryAt_eq_ok.mp found).1

theorem MeansAt.mono {left right : Environment} {tensor : Tensor κ} {index : Nat} {value : ℝ}
    (means : tensor.MeansAt left index value)
    (agree : ∀ atom ∈ tensor.atoms, ∀ value, left.read atom = some value →
      right.read atom = some value) : tensor.MeansAt right index value := by
  obtain ⟨entry, found, means⟩ := means
  refine ⟨entry, found, Expr.keeps_of_agree entry ?_ value means⟩
  intro atom occurs
  have among : entry ∈ tensor.entries := List.mem_of_getElem? (entryAt_eq_ok.mp found).2
  exact agree atom (mem_atoms.mpr ⟨entry, among, occurs⟩)

theorem MeansAt.unique {environment : Environment} {tensor : Tensor κ} {index : Nat} {x y : ℝ}
    (left : tensor.MeansAt environment index x) (right : tensor.MeansAt environment index y) :
    x = y := by
  obtain ⟨entry, found, first⟩ := left
  obtain ⟨other, again, second⟩ := right
  rw [found, Except.ok.injEq] at again
  subst again
  exact first.unique second

/-- A tensor keeps its values when everything that is put in place of an atom has the value of the
atom. -/
theorem MeansAt.substitute {left right : Environment} {tensor : Tensor κ} {index : Nat} {value : ℝ}
    (means : tensor.MeansAt left index value) {replacement : Atom → Option (Expr κ)}
    (atoms : ∀ atom ∈ tensor.atoms, ∀ number, left.read atom = some number →
      (Expr.replacementOf replacement atom).Means right number) :
    (tensor.substitute replacement).MeansAt right index value := by
  obtain ⟨entry, found, means⟩ := means
  refine ⟨_, entryAt_substitute.mpr ⟨entry, found, rfl⟩, ?_⟩
  refine Expr.keeps_substitute replacement entry ?_ value means
  intro atom occurs number known
  rw [Expr.means_atom] at known
  have among : entry ∈ tensor.entries := List.mem_of_getElem? (entryAt_eq_ok.mp found).2
  exact atoms atom (mem_atoms.mpr ⟨entry, among, occurs⟩) number known

theorem meansAt_ofSymbol {environment : Environment} {symbol : Symbol} {index : Nat} {value : ℝ} :
    (ofSymbol symbol : Tensor κ).MeansAt environment index value ↔
      index < symbol.shape.size ∧ environment symbol index = some value := by
  constructor
  · rintro ⟨entry, found, means⟩
    have bound : index < symbol.shape.size := (entryAt_eq_ok.mp found).1
    obtain ⟨atom, again, same, position⟩ := entryAt_ofSymbol (κ := κ) bound
    rw [found, Except.ok.injEq] at again
    subst again
    rw [Expr.means_atom, Environment.read, same, position] at means
    exact ⟨bound, means⟩
  · rintro ⟨bound, known⟩
    obtain ⟨atom, found, same, position⟩ := entryAt_ofSymbol (κ := κ) bound
    exact ⟨_, found, by rw [Expr.means_atom, Environment.read, same, position, known]⟩

end Tensor

namespace Environment

variable {κ : Type} [Scalar κ] [Exact κ]

open Classical in
/-- The environment in which every symbol has the values of its tensor, if it has one. -/
noncomputable def through (environment : Environment) (tensors : Symbol → Option (Tensor κ)) :
    Environment :=
  fun symbol index =>
    if found : ∃ value, ∃ tensor, tensors symbol = some tensor ∧
        tensor.MeansAt environment index value then some found.choose
    else none

theorem through_eq_some {environment : Environment} {tensors : Symbol → Option (Tensor κ)}
    {symbol : Symbol} {index : Nat} {value : ℝ} :
    environment.through tensors symbol index = some value ↔
      ∃ tensor, tensors symbol = some tensor ∧ tensor.MeansAt environment index value := by
  unfold through
  apply choose_eq_some
  rintro x y ⟨tensor, found, left⟩ ⟨other, again, right⟩
  rw [found, Option.some.injEq] at again
  subst again
  exact left.unique right

end Environment

namespace Tensor

theorem mapM_eq_some {α β : Type} {read : α → Option β} {items : List α} {results : List β} :
    items.mapM read = some results ↔ items.map read = results.map some := by
  induction items generalizing results with
  | nil => cases results <;> simp
  | cons head tail ih =>
      cases results with
      | nil => simp [List.mapM_cons, Option.bind_eq_some_iff]
      | cons first rest => simp [List.mapM_cons, Option.bind_eq_some_iff, ih]

variable {κ : Type} [Scalar κ] {tensor : Tensor κ}

theorem numbers?_eq_some {values : List κ} :
    tensor.numbers? = some values ↔ tensor.entries.map Expr.asNumber? = values.map some :=
  mapM_eq_some

theorem evaluate_eq_some {assignment : Atom → Option κ} {values : List κ} :
    tensor.evaluate assignment = some values ↔
      tensor.entries.map (Expr.evaluate assignment) = values.map some :=
  mapM_eq_some

theorem exists_evaluate {assignment : Atom → Option κ} :
    (∃ values, tensor.evaluate assignment = some values) ↔
      ∀ entry ∈ tensor.entries, ∃ value, entry.evaluate assignment = some value := by
  simp only [evaluate_eq_some]
  induction tensor.entries with
  | nil => exact ⟨fun _ _ among => absurd among List.not_mem_nil, fun _ => ⟨[], rfl⟩⟩
  | cons head tail ih =>
      rw [List.forall_mem_cons, ← ih]
      constructor
      · rintro ⟨_ | ⟨value, values⟩, same⟩
        · cases same
        · rw [List.map_cons, List.map_cons, List.cons.injEq] at same
          exact ⟨⟨value, same.1⟩, values, same.2⟩
      · rintro ⟨⟨value, found⟩, values, same⟩
        exact ⟨value :: values, by rw [List.map_cons, List.map_cons, found, same]⟩

end Tensor

namespace Shape

theorem ofDimensions_eq_scalar {rows columns : Nat} :
    ofDimensions rows columns = .scalar ↔ rows = 1 ∧ columns = 1 := by
  unfold ofDimensions
  split <;> simp_all

theorem ofDimensions_injective {rows columns height width : Nat}
    (same : ofDimensions rows columns = ofDimensions height width) :
    rows = height ∧ columns = width := by
  have first := congrArg Shape.rows same
  have second := congrArg Shape.columns same
  simp only [rows_ofDimensions, columns_ofDimensions] at first second
  exact ⟨first, second⟩

end Shape

namespace Tensor

open Matrix

variable {κ : Type} [Scalar κ] [Exact κ] {assignment : Assignment} {m n k : Nat}

/-- A tensor of the dimensions of a matrix, whose entries have the values of the matrix. -/
structure Holds (assignment : Assignment) (tensor : Tensor κ) (matrix : Matrix (Fin m) (Fin n) ℝ) :
    Prop where
  shape_eq : tensor.shape = Shape.ofDimensions m n
  length_eq : tensor.entries.length = m * n
  takes : ∀ (row : Fin m) (column : Fin n),
    (tensor.part row column).Takes assignment (matrix row column)

theorem flatIndex_lt (row : Fin m) (column : Fin n) : row * n + column < m * n :=
  calc row * n + column < row * n + n := by omega
    _ = (row + 1) * n := by ring
    _ ≤ m * n := Nat.mul_le_mul_right n row.isLt

section

variable {tensor left right product : Tensor κ} {matrix other : Matrix (Fin m) (Fin n) ℝ}

theorem Holds.getElem (holds : tensor.Holds assignment matrix) (row : Fin m) (column : Fin n) :
    tensor.entries[row * n + column]? = some (tensor.part row column) := by
  have bound : row * n + column < tensor.entries.length := holds.length_eq ▸ flatIndex_lt row column
  rw [part_eq, component, holds.shape_eq, Shape.flatIndex, Shape.columns_ofDimensions,
    List.getElem?_eq_getElem bound, Option.getD_some]

theorem holds_of_getElem {entries : List (Expr κ)} (length : entries.length = m * n)
    (takes : ∀ (row : Fin m) (column : Fin n), ∃ expr, entries[row * n + column]? = some expr ∧
      expr.Takes assignment (matrix row column)) :
    Holds assignment ⟨Shape.ofDimensions m n, entries⟩ matrix := by
  refine ⟨rfl, length, fun row column => ?_⟩
  obtain ⟨expr, found, value⟩ := takes row column
  rw [part_eq, component, Shape.flatIndex, Shape.columns_ofDimensions, found, Option.getD_some]
  exact value

theorem Holds.map (holds : tensor.Holds assignment matrix) {change : Expr κ → Expr κ} {f : ℝ → ℝ}
    (each : ∀ expr value, expr.Takes assignment value → (change expr).Takes assignment (f value)) :
    (tensor.map change).Holds assignment (matrix.map f) := by
  have shape := holds.shape_eq
  rw [Tensor.map, shape]
  refine holds_of_getElem (by rw [List.length_map, holds.length_eq]) fun row column => ?_
  rw [List.getElem?_map, holds.getElem, Option.map_some]
  exact ⟨_, rfl, each _ _ (holds.takes row column)⟩

theorem Holds.negate (holds : tensor.Holds assignment matrix) :
    tensor.negate.Holds assignment (-matrix) :=
  holds.map fun _ _ => Expr.takes_negate

theorem Holds.scale (holds : tensor.Holds assignment matrix) {factor : Expr κ} {value : ℝ}
    (takes : factor.Takes assignment value) :
    (tensor.scale factor).Holds assignment (matrix.map (· * value)) :=
  holds.map fun _ _ entry => Expr.takes_times entry takes

theorem Holds.add (first : left.Holds assignment matrix) (second : right.Holds assignment other)
    {sum : Tensor κ} (added : left.add right = .ok sum) :
    sum.Holds assignment (matrix + other) := by
  unfold Tensor.add zipWith at added
  split at added
  · cases added
    rw [first.shape_eq]
    refine holds_of_getElem ?_ fun row column => ?_
    · rw [List.length_zipWith, first.length_eq, second.length_eq, min_self]
    · rw [List.getElem?_zipWith, first.getElem, second.getElem]
      exact ⟨_, rfl, Expr.takes_plus (first.takes row column) (second.takes row column)⟩
  · cases added

end

theorem Holds.multiply {left right : Tensor κ} {first : Matrix (Fin m) (Fin k) ℝ}
    {second : Matrix (Fin k) (Fin n) ℝ} (lhs : left.Holds assignment first)
    (rhs : right.Holds assignment second) :
    (left.multiply right).Holds assignment (first * second) := by
  have rows : left.rows = m := by rw [Tensor.rows, lhs.shape_eq, Shape.rows_ofDimensions]
  have inner : left.columns = k := by rw [Tensor.columns, lhs.shape_eq, Shape.columns_ofDimensions]
  have columns : right.columns = n := by
    rw [Tensor.columns, rhs.shape_eq, Shape.columns_ofDimensions]
  refine ⟨?_, ?_, fun row column => ?_⟩
  · rw [Tensor.multiply, shape_build, rows, columns]
  · rw [Tensor.multiply, length_build, rows, columns]
  · rw [part_multiply (rows ▸ row.isLt) (columns ▸ column.isLt), inner, mul_apply]
    exact Expr.takes_sum_range fun index =>
      Expr.takes_times (lhs.takes row index) (rhs.takes index column)

theorem Holds.matmul {left right product : Tensor κ} {first : Matrix (Fin m) (Fin k) ℝ}
    {second : Matrix (Fin k) (Fin n) ℝ} (lhs : left.Holds assignment first)
    (rhs : right.Holds assignment second) (multiplied : left.matmul right = .ok product) :
    product.Holds assignment (first * second) := by
  unfold Tensor.matmul at multiplied
  split at multiplied
  · rename_i scalar
    cases multiplied
    obtain ⟨rfl, rfl⟩ := Shape.ofDimensions_eq_scalar.mp (lhs.shape_eq ▸ eq_of_beq scalar)
    have scaled : first * second = second.map (· * first 0 0) := by
      ext row column
      rw [mul_apply, Fin.sum_univ_one, Matrix.map_apply, mul_comm, Fin.fin_one_eq_zero row]
    exact scaled ▸ rhs.scale (lhs.takes 0 0)
  split at multiplied
  · rename_i _ scalar
    cases multiplied
    obtain ⟨rfl, rfl⟩ := Shape.ofDimensions_eq_scalar.mp (rhs.shape_eq ▸ eq_of_beq scalar)
    have scaled : first * second = first.map (· * second 0 0) := by
      ext row column
      rw [mul_apply, Fin.sum_univ_one, Matrix.map_apply, Fin.fin_one_eq_zero column]
    exact scaled ▸ lhs.scale (rhs.takes 0 0)
  split at multiplied
  · cases multiplied
  · cases multiplied
    exact lhs.multiply rhs

theorem holds_ofFn {exprs : Fin m → Expr κ} {values : Fin m → ℝ}
    (takes : ∀ row, (exprs row).Takes assignment (values row)) :
    (ofColumn (List.ofFn exprs)).Holds assignment (replicateCol (Fin 1) values) := by
  rw [ofColumn, Shape.column, List.length_ofFn]
  refine holds_of_getElem (by rw [List.length_ofFn, mul_one]) fun row column => ⟨exprs row, ?_, ?_⟩
  · rw [Fin.fin_one_eq_zero column, Fin.val_zero, mul_one, add_zero]
    simp
  · exact takes row

omit [Exact κ] in
theorem getElem_ofSymbol {symbol : Symbol} (shape : symbol.shape = Shape.ofDimensions m n)
    (row : Fin m) (column : Fin n) :
    ∃ atom : Atom, (ofSymbol symbol : Tensor κ).entries[row * n + column]? = some (.atom atom) ∧
      atom.symbol = symbol ∧ atom.flatIndex = row * n + column := by
  have bound : row * n + column < symbol.shape.size := by
    rw [shape, Shape.size_ofDimensions]
    exact flatIndex_lt row column
  obtain ⟨atom, found, same, position⟩ := entryAt_ofSymbol (κ := κ) bound
  exact ⟨atom, (entryAt_eq_ok.mp found).2, same, position⟩

theorem holds_ofSymbol {environment : Environment} {symbol : Symbol}
    {matrix : Matrix (Fin m) (Fin n) ℝ} (shape : symbol.shape = Shape.ofDimensions m n)
    (known : ∀ (row : Fin m) (column : Fin n),
      environment symbol (row * n + column) = some (matrix row column)) :
    (ofSymbol symbol : Tensor κ).Holds environment.read matrix := by
  have length := length_ofSymbol (κ := κ) symbol
  rw [shape, Shape.size_ofDimensions] at length
  have whole : (ofSymbol symbol : Tensor κ) =
      ⟨Shape.ofDimensions m n, (ofSymbol symbol).entries⟩ := by rw [← shape]; rfl
  rw [whole]
  refine holds_of_getElem length fun row column => ?_
  obtain ⟨atom, found, same, position⟩ := getElem_ofSymbol (κ := κ) shape row column
  refine ⟨_, found, (Expr.takes_atom _ _).mpr ?_⟩
  rw [Environment.read, same, position, known]

theorem getElem?_flatMap {α β : Type} {items : List α} {expand : α → List β} {width : Nat}
    (each : ∀ item ∈ items, (expand item).length = width) {row column : Nat}
    (bound : column < width) :
    (items.flatMap expand)[row * width + column]? =
      items[row]?.bind fun item => (expand item)[column]? := by
  induction items generalizing row with
  | nil => rfl
  | cons head tail ih =>
      rw [List.forall_mem_cons] at each
      rw [List.flatMap_cons]
      cases row with
      | zero =>
          rw [Nat.zero_mul, Nat.zero_add, List.getElem?_append_left (each.1 ▸ bound)]
          rfl
      | succ row =>
          have below : (expand head).length ≤ (row + 1) * width + column := by
            rw [each.1, Nat.succ_mul]
            omega
          have index : (row + 1) * width + column - (expand head).length =
              row * width + column := by
            rw [each.1, Nat.succ_mul]
            omega
          rw [List.getElem?_append_right below, index, ih each.2]
          rfl

omit [Exact κ] in
theorem jacobian_eq_ok {tensor jacobian : Tensor κ} {unknowns : List Atom}
    (made : tensor.jacobian unknowns = .ok jacobian) :
    jacobian = ⟨Shape.ofDimensions tensor.entries.length unknowns.length,
      tensor.entries.flatMap fun expr => unknowns.map fun unknown => expr.derivative unknown⟩ := by
  unfold Tensor.jacobian at made
  split at made
  · cases made
    rfl
  · cases made

omit [Exact κ] in
theorem forall_jacobian {property : Expr κ → Prop} {tensor jacobian : Tensor κ}
    {unknowns : List Atom} (derivative : ∀ entry ∈ tensor.entries, ∀ unknown,
      property (entry.derivative unknown))
    (made : tensor.jacobian unknowns = .ok jacobian) : ∀ entry ∈ jacobian.entries, property entry := by
  rw [jacobian_eq_ok made]
  intro entry member
  obtain ⟨expr, among, inside⟩ := List.mem_flatMap.mp member
  obtain ⟨unknown, _, rfl⟩ := List.mem_map.mp inside
  exact derivative expr among unknown

theorem holds_jacobian {tensor jacobian : Tensor κ} {unknowns : Fin n → Atom}
    {matrix : Matrix (Fin m) (Fin n) ℝ}
    (made : tensor.jacobian (List.ofFn unknowns) = .ok jacobian)
    (height : tensor.entries.length = m)
    (takes : ∀ (row : Fin m) (column : Fin n),
      ((tensor.component row).derivative (unknowns column)).Takes assignment (matrix row column)) :
    jacobian.Holds assignment matrix := by
  have width : (List.ofFn unknowns).length = n := List.length_ofFn
  rw [jacobian_eq_ok made, height, width]
  refine holds_of_getElem ?_ fun row column => ?_
  · simp [List.length_flatMap, height]
  · have each : ∀ expr ∈ tensor.entries,
        ((List.ofFn unknowns).map fun unknown => expr.derivative unknown).length = n := by
      simp
    have found : tensor.entries[row.val]? = some (tensor.component row) := by
      rw [component, List.getElem?_eq_getElem (height ▸ row.isLt), Option.getD_some]
    rw [getElem?_flatMap each column.isLt, found, Option.bind_some, List.getElem?_map]
    exact ⟨_, by simp, takes row column⟩

end Tensor

end Mechanism
