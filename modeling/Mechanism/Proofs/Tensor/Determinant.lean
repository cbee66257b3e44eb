import Mathlib.LinearAlgebra.Matrix.NonsingularInverse
import Mechanism.Proofs.Tensor.Matrices
import Mechanism.Tensor.Determinant

/-!
The expansion of a minor has the value of the determinant of the chosen rows and columns, and the
cofactors over the determinant have the values of the inverse matrix.

Determinants and inverses of evaluated tensors: the numbers that evaluation finds for the entries
of a square tensor are a real matrix, and the numbers that it finds for the determinant and the
inverse of the tensor are those of this matrix.
-/

namespace Mechanism

namespace Tensor

open Matrix Mechanism.Expr

variable {κ : Type} [Scalar κ] [Exact κ] {assignment : Assignment}

def Gives (assignment : Assignment) (entry : Option (Expr κ)) (value : ℝ) : Prop :=
  match entry with
  | some expr => expr.Takes assignment value
  | none => value = 0

def realSign (positive : Bool) : ℝ := if positive then 1 else -1

theorem real_signOf (positive : Bool) : Exact.real (signOf positive : κ) = realSign positive := by
  cases positive
  · rw [signOf, if_neg Bool.false_ne_true, Exact.real_neg, Exact.real_one]
    rfl
  · rw [signOf, if_pos rfl, Exact.real_one]
    rfl

theorem realSign_not (positive : Bool) : realSign (!positive) = -realSign positive := by
  cases positive <;> simp [realSign]

theorem sumsTo_alternately {contribution : Bool → Nat → Option (Expr κ)} {weight : Nat → ℝ}
    {size : Nat} {items : List Nat} (length : items.length = size)
    (gives : ∀ item ∈ items, ∀ positive,
      Gives assignment (contribution positive item) (realSign positive * weight item))
    (positive : Bool) :
    SumsTo assignment (alternately contribution positive items)
      (realSign positive * ∑ place : Fin size, (-1) ^ place.val * weight (items.getD place 0)) := by
  induction items generalizing size positive with
  | nil =>
      subst length
      simp [alternately]
  | cons head tail ih =>
      subst length
      rw [List.forall_mem_cons] at gives
      have first := gives.1 positive
      have later := ih rfl gives.2 (!positive)
      have total : realSign positive * ∑ place : Fin (head :: tail).length,
          (-1) ^ place.val * weight ((head :: tail).getD place 0) =
            realSign positive * weight head + realSign (!positive) *
              ∑ place : Fin tail.length, (-1) ^ place.val * weight (tail.getD place 0) := by
        rw [realSign_not]
        simp [Fin.sum_univ_succ, pow_succ, mul_add, Finset.mul_sum]
      rw [alternately, total]
      refine SumsTo.append ?_ later
      cases found : contribution positive head with
      | none =>
          rw [found] at first
          rw [show realSign positive * weight head = 0 from first]
          simp
      | some expr =>
          rw [found] at first
          exact sumsTo_singleton.mpr first

/-- The rows and columns of an infinite matrix that are named in two lists. -/
def chosen (size : Nat) (entries : Nat → Nat → ℝ) (rows columns : List Nat) :
    Matrix (Fin size) (Fin size) ℝ :=
  .of fun row column => entries (rows.getD row 0) (columns.getD column 0)

theorem getD_eraseIdx {size : Nat} (items : List Nat) (place : Fin (size + 1)) (index : Fin size) :
    (items.eraseIdx place).getD index 0 = items.getD (place.succAbove index) 0 := by
  rw [List.getD_eq_getElem?_getD, List.getD_eq_getElem?_getD, List.getElem?_eraseIdx]
  by_cases before : index.val < place.val
  · rw [Fin.succAbove_of_castSucc_lt _ _ (Fin.lt_def.mpr before), if_pos before, Fin.val_castSucc]
  · rw [Fin.succAbove_of_le_castSucc _ _ (Fin.le_def.mpr (not_lt.mp before)), if_neg before,
      Fin.val_succ]

theorem det_chosen_succ {size : Nat} (entries : Nat → Nat → ℝ) (row : Nat) (rows columns : List Nat) :
    (chosen (size + 1) entries (row :: rows) columns).det =
      ∑ place : Fin (size + 1), (-1) ^ place.val * (entries row (columns.getD place 0) *
        (chosen size entries rows (columns.eraseIdx place)).det) := by
  rw [det_succ_row_zero]
  refine Finset.sum_congr rfl fun place _ => ?_
  rw [mul_assoc]
  congr 3
  ext index other
  simp only [submatrix_apply, chosen, of_apply, Fin.val_succ, List.getD_cons_succ]
  rw [getD_eraseIdx]

theorem takes_minor {entryOf : Nat → Nat → Option (Expr κ)} {entries : Nat → Nat → ℝ}
    {size : Nat} {rows columns : List Nat} (height : rows.length = size)
    (width : columns.length = size) (distinct : columns.Nodup)
    (gives : ∀ row ∈ rows, ∀ column ∈ columns,
      Gives assignment (entryOf row column) (entries row column)) :
    (minor entryOf rows columns).Takes assignment (chosen size entries rows columns).det := by
  induction rows generalizing size columns with
  | nil =>
      subst height
      rw [minor, det_fin_zero]
      exact takes_one
  | cons row rows ih =>
      obtain ⟨size, rfl⟩ : ∃ below, size = below + 1 := ⟨rows.length, height.symm⟩
      rw [List.forall_mem_cons] at gives
      have below : rows.length = size := Nat.succ.inj height
      have terms (column : Nat) (member : column ∈ columns) (positive : Bool) :
          Gives assignment ((entryOf row column).map fun entry =>
            product [.number (signOf positive), entry, minor entryOf rows (columns.erase column)])
            (realSign positive * (entries row column *
              (chosen size entries rows (columns.erase column)).det)) := by
        have entry := gives.1 column member
        cases found : entryOf row column with
        | none =>
            rw [found] at entry
            rw [show entries row column = 0 from entry, zero_mul, mul_zero]
            rfl
        | some expr =>
            rw [found] at entry
            have left : (columns.erase column).length = size := by
              rw [List.length_erase_of_mem member, width, Nat.add_sub_cancel]
            have minor := ih below left (distinct.erase column) fun row among other inside =>
              gives.2 row among other (List.mem_of_mem_erase inside)
            have sign : (number (signOf positive : κ)).Takes assignment (realSign positive) :=
              real_signOf (κ := κ) positive ▸ takes_number _
            exact takes_product (multipliesTo_cons.mpr ⟨_, _, sign, multipliesTo_cons.mpr
              ⟨_, _, entry, multipliesTo_singleton.mpr minor, rfl⟩, rfl⟩)
      have sums := takes_sum (sumsTo_alternately width terms true)
      rw [minor, det_chosen_succ]
      convert sums using 1
      rw [show realSign true = 1 from rfl, one_mul]
      refine Finset.sum_congr rfl fun place _ => ?_
      have bound : place.val < columns.length := by
        rw [width]
        exact place.isLt
      rw [List.getD_eq_getElem?_getD, List.getElem?_eq_getElem bound, Option.getD_some,
        distinct.erase_getElem place bound]

variable {m : Nat} {matrix : Matrix (Fin m) (Fin m) ℝ} {tensor : Tensor κ}

noncomputable def unbounded (matrix : Matrix (Fin m) (Fin m) ℝ) (row column : Nat) : ℝ :=
  if inside : row < m ∧ column < m then matrix ⟨row, inside.1⟩ ⟨column, inside.2⟩ else 0

theorem unbounded_val (matrix : Matrix (Fin m) (Fin m) ℝ) (row column : Fin m) :
    unbounded matrix row column = matrix row column :=
  dif_pos ⟨row.isLt, column.isLt⟩

theorem getD_range (place : Fin m) : (List.range m).getD place 0 = place := by
  simp [List.getD_eq_getElem?_getD]

theorem chosen_all (matrix : Matrix (Fin m) (Fin m) ℝ) :
    chosen m (unbounded matrix) (List.range m) (List.range m) = matrix := by
  ext row column
  rw [chosen, of_apply, getD_range, getD_range, unbounded_val]

theorem chosen_erase {size : Nat} (matrix : Matrix (Fin (size + 1)) (Fin (size + 1)) ℝ)
    (row column : Fin (size + 1)) :
    chosen size (unbounded matrix) ((List.range (size + 1)).erase row)
      ((List.range (size + 1)).erase column) =
        matrix.submatrix row.succAbove column.succAbove := by
  have without (place : Fin (size + 1)) (index : Fin size) :
      ((List.range (size + 1)).erase place).getD index 0 = place.succAbove index := by
    have bound : place.val < (List.range (size + 1)).length := by
      rw [List.length_range]
      exact place.isLt
    have erased := List.nodup_range.erase_getElem place.val bound
    rw [List.getElem_range] at erased
    rw [erased, getD_eraseIdx, getD_range]
  ext index other
  rw [chosen, of_apply, without, without, unbounded_val, submatrix_apply]

theorem Holds.gives (holds : tensor.Holds assignment matrix) :
    ∀ row < m, ∀ column < m,
      Gives assignment (tensor.support.entry row column) (unbounded matrix row column) := by
  intro row rowBound column columnBound
  have width : tensor.columns = m := by rw [columns, holds.shape_eq, Shape.columns_ofDimensions]
  have found := holds.getElem ⟨row, rowBound⟩ ⟨column, columnBound⟩
  have takes := holds.takes ⟨row, rowBound⟩ ⟨column, columnBound⟩
  rw [← unbounded_val matrix] at takes
  simp only [support, Support.entry, width, List.getElem?_toArray, List.getElem?_map, found,
    Option.map_some, Option.join_some]
  split
  · rename_i zero
    exact takes.unique (isZero_takes zero)
  · exact takes

theorem Holds.takes_determinant (holds : tensor.Holds assignment matrix) :
    (minor tensor.support.entry (List.range m) (List.range m)).Takes assignment matrix.det := by
  conv_rhs => rw [← chosen_all matrix]
  exact takes_minor List.length_range List.length_range List.nodup_range
    fun row among column inside =>
      holds.gives row (List.mem_range.mp among) column (List.mem_range.mp inside)

theorem Holds.takes_cofactor {size : Nat} {matrix : Matrix (Fin (size + 1)) (Fin (size + 1)) ℝ}
    (holds : tensor.Holds assignment matrix) (row column : Fin (size + 1)) :
    (minor tensor.support.entry ((List.range (size + 1)).erase column)
      ((List.range (size + 1)).erase row)).Takes assignment
        (matrix.submatrix column.succAbove row.succAbove).det := by
  have length (place : Fin (size + 1)) : ((List.range (size + 1)).erase place.val).length = size := by
    rw [List.length_erase_of_mem (List.mem_range.mpr place.isLt), List.length_range,
      Nat.add_sub_cancel]
  rw [← chosen_erase]
  refine takes_minor (length column) (length row) (List.nodup_range.erase _) ?_
  intro first among second inside
  exact holds.gives first (List.mem_range.mp (List.mem_of_mem_erase among)) second
    (List.mem_range.mp (List.mem_of_mem_erase inside))

omit [Exact κ] in
theorem squareSize_ok {operation : TensorOperation} {size : Nat}
    (square : squareSize operation tensor = .ok size) :
    size = tensor.rows ∧ tensor.rows = tensor.columns := by
  unfold squareSize at square
  split at square
  · cases square
  rename_i dimensions
  split at square
  · cases square
  · cases square
    exact ⟨rfl, not_ne_iff.mp dimensions⟩

omit [Exact κ] in
theorem inverse_eq_ok {result : Tensor κ} (inverted : tensor.inverse = .ok result)
    (rows : tensor.rows = m) :
    result = build m m fun row column =>
      product [.number (signOf ((row + column) % 2 = 0)),
        minor tensor.support.entry ((List.range m).erase column) ((List.range m).erase row),
        (minor tensor.support.entry (List.range m) (List.range m)).reciprocal] := by
  rw [inverse_eq] at inverted
  obtain ⟨size, square, rest⟩ := bind_eq_ok.mp inverted
  obtain rfl : size = m := (squareSize_ok square).1.trans rows
  simp only at rest
  split at rest
  · cases rest
  · cases rest
    rfl

theorem realSign_even (row column : Nat) :
    realSign ((row + column) % 2 = 0) = (-1) ^ (column + row) := by
  rw [Nat.add_comm, realSign]
  rcases Nat.even_or_odd (column + row) with even | odd
  · rw [even.neg_one_pow, if_pos (by simpa using Nat.even_iff.mp even)]
  · rw [odd.neg_one_pow, if_neg (by simp [Nat.odd_iff.mp odd])]

theorem Holds.inverse (holds : tensor.Holds assignment matrix) (regular : matrix.det ≠ 0)
    {result : Tensor κ} (inverted : tensor.inverse = .ok result) :
    result.Holds assignment matrix⁻¹ := by
  have rows : tensor.rows = m := by rw [Tensor.rows, holds.shape_eq, Shape.rows_ofDimensions]
  rw [inverse_eq_ok inverted rows]
  refine ⟨shape_build _ _ _, length_build _ _ _, fun row column => ?_⟩
  rw [part_build _ row.isLt column.isLt]
  obtain ⟨size, rfl⟩ : ∃ size, m = size + 1 := Nat.exists_eq_succ_of_ne_zero row.pos.ne'
  have sign : (number (signOf ((row.val + column) % 2 = 0) : κ)).Takes assignment
      ((-1) ^ (column.val + row)) := by
    rw [← realSign_even, ← real_signOf (κ := κ)]
    exact takes_number _
  have cofactor := holds.takes_cofactor row column
  have factor := takes_reciprocal holds.takes_determinant regular
  refine takes_product (multipliesTo_cons.mpr ⟨_, _, sign, multipliesTo_cons.mpr
    ⟨_, _, cofactor, multipliesTo_singleton.mpr factor, rfl⟩, ?_⟩)
  rw [inv_def, Matrix.smul_apply, adjugate_fin_succ_eq_det_submatrix, Ring.inverse_eq_inv', smul_eq_mul]
  ring

end Tensor

def Assignment.ofNumbers {κ : Type} [Scalar κ] [Exact κ] (assignment : Atom → Option κ) :
    Assignment :=
  fun atom => (assignment atom).map Exact.real

namespace Tensor

open Matrix

variable {κ : Type} [Scalar κ] [Exact κ] {assignment : Atom → Option κ} {m n : Nat}

theorem takes_iff_evaluate {expr : Expr κ} {value : ℝ} :
    expr.Takes (.ofNumbers assignment) value ↔
      ∃ number, expr.evaluate assignment = some number ∧ Exact.real number = value := by
  have same := Expr.real_evaluate assignment expr
  rw [Expr.Takes, show Assignment.ofNumbers assignment = fun atom =>
    (assignment atom).map Exact.real from rfl, ← same, Option.map_eq_some_iff]

/-- The real matrix whose entries are given row by row. -/
def realMatrix (m n : Nat) (numbers : List κ) : Matrix (Fin m) (Fin n) ℝ :=
  .of fun row column => Exact.real (numbers.getD (row * n + column) 0)

variable {tensor : Tensor κ}

theorem holds_of_evaluate (shaped : tensor.WellShaped) (height : tensor.rows = m)
    (width : tensor.columns = n) {numbers : List κ}
    (evaluated : tensor.evaluate assignment = some numbers) :
    tensor.Holds (.ofNumbers assignment) (realMatrix m n numbers) := by
  have shape := shaped.shape_eq
  have length := shaped.length_eq
  rw [height, width] at shape length
  refine ⟨shape, length, fun row column => ?_⟩
  have bound : row * n + column < tensor.entries.length :=
    (flatIndex_lt row column).trans_eq length.symm
  have each := congrArg (·[row.val * n + column]?) (evaluate_eq_some.mp evaluated)
  simp only [List.getElem?_map, List.getElem?_eq_getElem bound, Option.map_some] at each
  obtain ⟨number, found, same⟩ := Option.map_eq_some_iff.mp each.symm
  rw [part_eq, component, shape, Shape.flatIndex, Shape.columns_ofDimensions,
    List.getElem?_eq_getElem bound, Option.getD_some, takes_iff_evaluate]
  exact ⟨number, same.symm, by rw [realMatrix, of_apply, List.getD_eq_getElem?_getD, found,
    Option.getD_some]⟩

theorem Holds.evaluate {matrix : Matrix (Fin m) (Fin n) ℝ}
    (holds : tensor.Holds (.ofNumbers assignment) matrix) :
    ∃ numbers, tensor.evaluate assignment = some numbers ∧ realMatrix m n numbers = matrix := by
  have each : ∀ entry ∈ tensor.entries, ∃ number, entry.evaluate assignment = some number := by
    intro entry among
    obtain ⟨index, bound, rfl⟩ := List.getElem_of_mem among
    have inside : index < m * n := holds.length_eq ▸ bound
    have columns : 0 < n := Nat.pos_of_mul_pos_left (Nat.zero_lt_of_lt inside)
    let row : Fin m := ⟨index / n, Nat.div_lt_of_lt_mul (Nat.mul_comm m n ▸ inside)⟩
    let column : Fin n := ⟨index % n, Nat.mod_lt _ columns⟩
    have place : row.val * n + column = index := Nat.div_add_mod' index n
    have found := holds.getElem row column
    rw [place, List.getElem?_eq_getElem bound, Option.some.injEq] at found
    obtain ⟨number, computed, _⟩ := takes_iff_evaluate.mp (found ▸ holds.takes row column)
    exact ⟨number, computed⟩
  obtain ⟨numbers, evaluated⟩ := exists_evaluate.mpr each
  refine ⟨numbers, evaluated, ?_⟩
  ext row column
  have entry := congrArg (·[row.val * n + column]?) (evaluate_eq_some.mp evaluated)
  simp only [List.getElem?_map, holds.getElem row column, Option.map_some] at entry
  obtain ⟨number, found, same⟩ := Option.map_eq_some_iff.mp entry.symm
  obtain ⟨other, computed, value⟩ := takes_iff_evaluate.mp (holds.takes row column)
  rw [computed, Option.some.injEq] at same
  rw [realMatrix, of_apply, List.getD_eq_getElem?_getD, found, Option.getD_some, same, value]

omit [Exact κ] in
theorem squareSize_eq_ok {operation : TensorOperation} (height : tensor.rows = n)
    (width : tensor.columns = n) (small : n ≤ largestSquare) :
    squareSize operation tensor = .ok n := by
  rw [squareSize, if_neg (by simp [height, width]), if_neg (by omega), height]

omit [Exact κ] in
theorem inverse_eq_error {error : AlgebraError} (height : tensor.rows = n)
    (width : tensor.columns = n) (small : n ≤ largestSquare)
    (failed : tensor.inverse = .error error) :
    error = .singular ∧
      (minor tensor.support.entry (List.range n) (List.range n)).isZero = true := by
  rw [inverse_eq, squareSize_eq_ok height width small] at failed
  simp only [bind, Except.bind] at failed
  split at failed
  · rename_i vanishes
    cases failed
    exact ⟨rfl, vanishes⟩
  · cases failed

theorem evaluate_determinant_inverse (shaped : tensor.WellShaped) (height : tensor.rows = n)
    (width : tensor.columns = n) (small : n ≤ largestSquare) :
    (∃ expr, tensor.determinant = .ok expr ∧
      ∀ assignment numbers, tensor.evaluate assignment = some numbers →
        ∃ number, expr.evaluate assignment = some number ∧
          Exact.real number = (realMatrix n n numbers).det) ∧
    (∀ error, tensor.inverse = .error error → error = .singular ∧
      ∀ assignment numbers, tensor.evaluate assignment = some numbers →
        (realMatrix n n numbers).det = 0) ∧
    ∀ inverse, tensor.inverse = .ok inverse → inverse.shape = tensor.shape ∧
      ∀ assignment numbers, tensor.evaluate assignment = some numbers →
        (realMatrix n n numbers).det ≠ 0 →
        ∃ inverted, inverse.evaluate assignment = some inverted ∧
          realMatrix n n inverted * realMatrix n n numbers = 1 ∧
          realMatrix n n numbers * realMatrix n n inverted = 1 := by
  refine ⟨⟨minor tensor.support.entry (List.range n) (List.range n), ?_, ?_⟩, ?_, ?_⟩
  · rw [determinant_eq, squareSize_eq_ok height width small]
    rfl
  · intro assignment numbers evaluated
    have holds := holds_of_evaluate shaped height width evaluated
    exact takes_iff_evaluate.mp holds.takes_determinant
  · intro error failed
    obtain ⟨rfl, vanishes⟩ := inverse_eq_error height width small failed
    refine ⟨rfl, fun assignment numbers evaluated => ?_⟩
    have holds := holds_of_evaluate shaped height width evaluated
    exact holds.takes_determinant.unique (Expr.isZero_takes vanishes)
  · intro inverse inverted
    have shape : inverse.shape = tensor.shape := by
      rw [inverse_eq_ok inverted height, shape_build, shaped.shape_eq, height, width]
    refine ⟨shape, fun assignment numbers evaluated regular => ?_⟩
    have holds := holds_of_evaluate shaped height width evaluated
    obtain ⟨entries, computed, same⟩ := (holds.inverse regular inverted).evaluate
    have unit : IsUnit (realMatrix n n numbers).det := isUnit_iff_ne_zero.mpr regular
    refine ⟨entries, computed, ?_, ?_⟩
    · rw [same, nonsing_inv_mul _ unit]
    · rw [same, mul_nonsing_inv _ unit]

namespace Square

def symbol : Symbol := ⟨0, "a", .matrix 2 2, .real⟩

noncomputable def entries : Tensor RealNumber := ofSymbol symbol

def numbers : List RealNumber := [⟨1⟩, ⟨1⟩, ⟨1⟩, ⟨-1⟩]

def assigned (atom : Atom) : Option RealNumber := numbers[atom.flatIndex]?

/-- A matrix of four symbols has an inverse, which is right where the last one is minus one and
the others are one. -/
theorem evaluate_inverse_entries : (∃ expr, entries.determinant = .ok expr ∧
    ∃ number, expr.evaluate assigned = some number ∧ number.value = -2) ∧
    ∃ inverse inverted, entries.inverse = .ok inverse ∧
      inverse.evaluate assigned = some inverted ∧
      realMatrix 2 2 inverted * realMatrix 2 2 numbers = 1 := by
  have shaped : entries.WellShaped := ⟨rfl, rfl⟩
  have evaluated : entries.evaluate assigned = some numbers := by
    rw [evaluate_eq_some]
    simp [entries, ofSymbol, symbol, Symbol.atoms, Shape.places, Shape.rows, Shape.columns,
      List.range_succ, Expr.evaluate_eq, Expr.valueAt, Symbol.atomAt, Shape.isScalar, assigned,
      Atom.flatIndex, Shape.flatIndex, numbers]
  have determined : (realMatrix 2 2 numbers).det = -2 := by
    rw [det_fin_two]
    simp [realMatrix, numbers, Exact.real]
    norm_num
  obtain ⟨⟨expr, found, each⟩, singular, right⟩ :=
    evaluate_determinant_inverse shaped rfl rfl (n := 2) (by decide)
  obtain ⟨number, computed, value⟩ := each assigned numbers evaluated
  refine ⟨⟨expr, found, number, computed, value.trans determined⟩, ?_⟩
  cases inverted : entries.inverse with
  | error error =>
      have vanishes := (singular error inverted).2 assigned numbers evaluated
      rw [determined] at vanishes
      norm_num at vanishes
  | ok inverse =>
      have regular : (realMatrix 2 2 numbers).det ≠ 0 := by
        rw [determined]
        norm_num
      obtain ⟨values, found, left, _⟩ :=
        (right inverse inverted).2 assigned numbers evaluated regular
      exact ⟨inverse, values, rfl, found, left⟩

end Square

end Tensor

end Mechanism
