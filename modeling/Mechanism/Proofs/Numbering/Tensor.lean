import Mechanism.Loop.Planar
import Mechanism.Proofs.Numbering.Reading
import Mechanism.Tensor.Determinant

/-!
Tensors of expressions, and points and links in a plane, whose numbers are moved. Shapes and refusals
are the same, and the entries of every result are the moved ones.
-/

namespace Mechanism

variable {κ : Type} [Scalar κ]

instance : Numbered (Tensor κ) := ⟨fun offset tensor =>
  ⟨tensor.shape, tensor.entries.map (shift offset)⟩⟩

instance : Faithful (Tensor κ) := ⟨fun offset left right same => by
  obtain ⟨leftShape, leftEntries⟩ := left
  obtain ⟨rightShape, rightEntries⟩ := right
  have injective : Function.Injective (List.map (shift offset : Expr κ → Expr κ)) :=
    List.map_injective_iff.mpr (Faithful.injective offset)
  obtain rfl : leftShape = rightShape := congrArg Tensor.shape same
  exact congrArg (Tensor.mk leftShape) (injective (congrArg Tensor.entries same))⟩

namespace Tensor

variable (offset : Nat) (tensor left right : Tensor κ)

@[simp] theorem shift_mk (shape : Shape) (entries : List (Expr κ)) :
    shift offset (Tensor.mk shape entries) = ⟨shape, entries.map (shift offset)⟩ := rfl

@[simp] theorem shift_shape : (shift offset tensor).shape = tensor.shape := rfl

@[simp] theorem shift_entries :
    (shift offset tensor).entries = tensor.entries.map (shift offset) := rfl

@[simp] theorem rows_shift : (shift offset tensor).rows = tensor.rows := rfl

@[simp] theorem columns_shift : (shift offset tensor).columns = tensor.columns := rfl

@[simp] theorem length_shift : (shift offset tensor).length = tensor.length := by
  simp [length]

@[simp] theorem ofExpr_shift (expr : Expr κ) :
    ofExpr (shift offset expr) = shift offset (ofExpr expr) := rfl

@[simp] theorem ofColumn_shift (entries : List (Expr κ)) :
    ofColumn (entries.map (shift offset)) = shift offset (ofColumn entries) := by
  simp [ofColumn]

@[simp] theorem matrix_shift (rows columns : Nat) (entries : List (Expr κ)) :
    matrix rows columns (entries.map (shift offset)) =
      shift offset (matrix rows columns entries) := by
  simp only [matrix, List.length_map]
  split <;> simp

@[simp] theorem ofRows_shift (lines : List (List (Expr κ))) :
    ofRows (lines.map (shift offset)) = shift offset (ofRows lines) := by
  have width : ((lines.map (shift offset)).head?.map List.length).getD 0 =
      (lines.head?.map List.length).getD 0 := by
    cases lines <;> simp
  have flat : (lines.map (shift offset)).flatten = lines.flatten.map (shift offset) := by
    rw [List.map_flatten]
    rfl
  simp only [ofRows, width, flat, List.find?_map, Function.comp_def, shift_list, List.length_map,
    matrix_shift]
  cases lines.find? fun line => line.length != (lines.head?.map List.length).getD 0 <;> simp

@[simp] theorem ofSymbol_shift (symbol : Symbol) :
    (ofSymbol (shift offset symbol) : Tensor κ) = shift offset (ofSymbol symbol) := by
  simp [ofSymbol]

theorem map_shift {change change' : Expr κ → Expr κ}
    (same : ∀ expr, change' (shift offset expr) = shift offset (change expr)) :
    (shift offset tensor).map change' = shift offset (tensor.map change) := by
  simp [map, same]

theorem mapM?_shift {ε : Type} [Numbered ε] {change change' : Expr κ → Except ε (Expr κ)}
    (same : ∀ expr, change' (shift offset expr) = shift offset (change expr)) :
    (shift offset tensor).mapM? change' = shift offset (tensor.mapM? change) := by
  refine bind_shift offset ?_ fun entries => rfl
  exact mapM_shift offset tensor.entries fun expr _ => same expr

@[simp] theorem ofNumbers_shift (shape : Shape) (values : List κ) :
    shift offset (ofNumbers shape values) = ofNumbers shape values := by
  rw [ofNumbers, ← matrix_shift]
  simp [Function.comp_def]

@[simp] theorem shift_zeros (rows columns : Nat) :
    shift offset (zeros rows columns : Tensor κ) = zeros rows columns := by
  simp [zeros]

@[simp] theorem shift_identity (size : Nat) :
    shift offset (identity size : Tensor κ) = identity size := by
  simp [identity]

@[simp] theorem entry_shift (row column : Nat) :
    (shift offset tensor).entry row column = shift offset (tensor.entry row column) := by
  simp only [entry, shift_shape, shift_entries, List.getElem?_map]
  cases tensor.shape.contains row column <;>
    cases tensor.entries[tensor.shape.flatIndex row column]? <;> simp

@[simp] theorem entryAt_shift (index : Nat) :
    (shift offset tensor).entryAt index = shift offset (tensor.entryAt index) :=
  entry_shift offset tensor _ _

@[simp] theorem toExpr_shift : (shift offset tensor).toExpr = shift offset tensor.toExpr := by
  obtain ⟨shape, entries⟩ := tensor
  cases shape <;> cases entries <;> simp [toExpr]

@[simp] theorem atoms_shift : (shift offset tensor).atoms = tensor.atoms.map (shift offset) := by
  rw [atoms, atoms, shift_entries, List.flatMap_map, ← Grouping.distinct_shift, List.map_flatMap]
  simp

@[simp] theorem symbols_shift : (shift offset tensor).symbols = tensor.symbols.map (shift offset) := by
  rw [symbols, symbols, atoms_shift, ← Grouping.distinct_shift]
  simp [Function.comp_def]

@[simp] theorem numbers?_shift : (shift offset tensor).numbers? = tensor.numbers? := by
  rw [numbers?, shift_entries, List.mapM_map]
  simp [numbers?, Function.comp_def]

@[simp] theorem operations_shift : (shift offset tensor).operations = tensor.operations := by
  simp [operations, Function.comp_def]

theorem substitute_shift {replacement replacement' : Atom → Option (Expr κ)}
    (same : ∀ atom, replacement' (shift offset atom) = (replacement atom).map (shift offset)) :
    (shift offset tensor).substitute replacement' = shift offset (tensor.substitute replacement) :=
  map_shift offset tensor (Expr.substitute_shift offset same)

theorem evaluate_shift {assignment assignment' : Atom → Option κ}
    (same : ∀ atom, assignment' (shift offset atom) = assignment atom) :
    (shift offset tensor).evaluate assignment' = tensor.evaluate assignment := by
  rw [evaluate, shift_entries, List.mapM_map]
  simp [evaluate, Function.comp_def, Expr.evaluate_shift offset same]

@[simp] theorem aliasTarget?_shift :
    (shift offset tensor).aliasTarget? = tensor.aliasTarget?.map (shift offset) := by
  simp only [aliasTarget?, shift_entries, List.head?_map]
  cases tensor.entries.head? with
  | none => rfl
  | some first =>
      cases found : first.asAtom? with
      | none => simp [found]
      | some atom =>
          simp only [Option.map_some, Option.bind_eq_bind, Option.bind_some, Expr.asAtom?_shift,
            found, Atom.symbol_shift, ofSymbol_shift, shift_inj]
          split <;> rfl

@[simp] theorem grid_entry_shift (row column : Nat) :
    (shift offset tensor).grid.entry row column = shift offset (tensor.grid.entry row column) := by
  simp only [grid, Grid.entry, shift_shape, shift_entries, List.getElem?_toArray, List.getElem?_map]
  cases tensor.entries[tensor.shape.flatIndex row column]? <;> simp

theorem build_shift (rows columns : Nat) {entryOf entryOf' : Nat → Nat → Expr κ}
    (same : ∀ row column, entryOf' row column = shift offset (entryOf row column)) :
    build rows columns entryOf' = shift offset (build rows columns entryOf) := by
  simp [build, same, List.map_flatMap, Function.comp_def]

@[simp] theorem transpose_shift : (shift offset tensor).transpose = shift offset tensor.transpose :=
  build_shift offset _ _ fun row column => grid_entry_shift offset tensor column row

theorem zipWith_entries_shift {combine : Expr κ → Expr κ → Expr κ}
    (same : ∀ a b, combine (shift offset a) (shift offset b) = shift offset (combine a b))
    (lefts rights : List (Expr κ)) :
    List.zipWith combine (lefts.map (shift offset)) (rights.map (shift offset)) =
      (List.zipWith combine lefts rights).map (shift offset) := by
  simp [List.zipWith_map, List.map_zipWith, same]

theorem zipWith_shift (operation : TensorOperation) {combine : Expr κ → Expr κ → Expr κ}
    (same : ∀ a b, combine (shift offset a) (shift offset b) = shift offset (combine a b)) :
    zipWith operation combine (shift offset left) (shift offset right) =
      shift offset (zipWith operation combine left right) := by
  simp only [zipWith, shift_shape, shift_entries, zipWith_entries_shift offset same]
  split <;> simp

@[simp] theorem sumEntries_shift :
    (shift offset left).sumEntries (shift offset right) = shift offset (left.sumEntries right) := by
  simp [sumEntries, zipWith_entries_shift offset (Expr.add_shift offset)]

@[simp] theorem add_shift :
    (shift offset left).add (shift offset right) = shift offset (left.add right) :=
  zipWith_shift offset left right _ (Expr.add_shift offset)

@[simp] theorem sub_shift :
    (shift offset left).sub (shift offset right) = shift offset (left.sub right) :=
  zipWith_shift offset left right _ (Expr.sub_shift offset)

@[simp] theorem scale_shift (factor : Expr κ) :
    (shift offset tensor).scale (shift offset factor) = shift offset (tensor.scale factor) :=
  map_shift offset tensor fun expr => Expr.mul_shift offset expr factor

@[simp] theorem negate_shift : (shift offset tensor).negate = shift offset tensor.negate :=
  map_shift offset tensor (Expr.neg_shift offset)

@[simp] theorem multiply_shift :
    (shift offset left).multiply (shift offset right) = shift offset (left.multiply right) := by
  refine build_shift offset _ _ fun row column => ?_
  rw [← Expr.sum_shift]
  simp [Function.comp_def]

@[simp] theorem matmul_shift :
    (shift offset left).matmul (shift offset right) = shift offset (left.matmul right) := by
  simp only [matmul, shift_shape, grid_entry_shift, scale_shift, columns_shift, rows_shift,
    multiply_shift]
  split
  · rfl
  split
  · rfl
  split <;> rfl

@[simp] theorem dot_shift :
    (shift offset left).dot (shift offset right) = shift offset (left.dot right) := by
  simp only [dot, shift_shape, shift_entries, zipWith_entries_shift offset (Expr.mul_shift offset),
    Expr.sum_shift]
  split <;> simp

@[simp] theorem norm_shift : (shift offset tensor).norm = shift offset tensor.norm := by
  rw [norm, dot_shift, norm]
  cases tensor.dot tensor <;> simp [Except.map]

@[simp] theorem cross_shift :
    (shift offset left).cross (shift offset right) = shift offset (left.cross right) := by
  obtain ⟨leftShape, lefts⟩ := left
  obtain ⟨rightShape, rights⟩ := right
  rcases lefts with _ | ⟨a, _ | ⟨b, _ | ⟨c, _ | ⟨d, lefts⟩⟩⟩⟩ <;>
    rcases rights with _ | ⟨x, _ | ⟨y, _ | ⟨z, _ | ⟨w, rights⟩⟩⟩⟩ <;>
    simp [cross, ← ofColumn_shift]

@[simp] theorem vstack_shift (parts : List (Tensor κ)) :
    vstack (parts.map (shift offset)) = shift offset (vstack parts) := by
  cases parts with
  | nil => simp [vstack]
  | cons first rest =>
      have entries : ((first :: rest).map (shift offset)).flatMap Tensor.entries =
          ((first :: rest).flatMap Tensor.entries).map (shift offset) := by
        rw [List.flatMap_map, List.map_flatMap]
        rfl
      have heights : ((first :: rest).map (shift offset)).map rows = (first :: rest).map rows := by
        simp [Function.comp_def]
      rw [List.map_cons] at entries heights ⊢
      simp only [vstack, List.find?_map, Function.comp_def, columns_shift, entries, heights]
      cases rest.find? fun part => part.columns != first.columns <;> simp

@[simp] theorem select_shift (indices : List Nat) :
    (shift offset tensor).select indices = shift offset (tensor.select indices) := by
  refine bind_shift offset ?_ fun entries => ?_
  · exact mapM_moved offset indices fun index _ => entryAt_shift offset tensor index
  · simp [pure, Except.pure]

@[simp] theorem columnRange_shift (first last : Nat) :
    (shift offset tensor).columnRange first last = shift offset (tensor.columnRange first last) := by
  have chosen := build_shift offset tensor.rows (last - first) fun row column =>
    grid_entry_shift offset tensor row (first + column)
  rw [columnRange, columnRange, shift_ite]
  exact ite_congr rfl (fun _ => rfl) fun _ => congrArg Except.ok chosen

@[simp] theorem jacobian_shift (unknowns : List Atom) :
    (shift offset tensor).jacobian (unknowns.map (shift offset)) =
      shift offset (tensor.jacobian unknowns) := by
  simp only [jacobian, shift_shape, length_shift, List.length_map, shift_entries]
  split
  · simp [List.flatMap_map, List.map_flatMap, Function.comp_def]
  · rfl

theorem alternately_shift {α : Type} {contribution contribution' : Bool → α → Option (Expr κ)}
    (same : ∀ positive item,
      contribution' positive item = (contribution positive item).map (shift offset))
    (positive : Bool) (items : List α) :
    alternately contribution' positive items =
      (alternately contribution positive items).map (shift offset) := by
  induction items generalizing positive with
  | nil => rfl
  | cons item items ih =>
      rw [alternately, alternately, ih, same, List.map_append]
      cases contribution positive item <;> rfl

theorem minor_shift {entryOf entryOf' : Nat → Nat → Option (Expr κ)}
    (same : ∀ row column, entryOf' row column = (entryOf row column).map (shift offset))
    (rows columns : List Nat) :
    minor entryOf' rows columns = shift offset (minor entryOf rows columns) := by
  induction rows generalizing columns with
  | nil => simp [minor]
  | cons row rows ih =>
      rw [minor, minor, ← Expr.sum_shift]
      refine congrArg Expr.sum (alternately_shift offset (fun positive column => ?_) true columns)
      rw [same, Option.map_map, Option.map_map]
      refine congrArg (Option.map · _) (funext fun entry => ?_)
      simp [ih, ← Expr.product_shift]

theorem support_shift (row column : Nat) :
    (shift offset tensor).support.entry row column =
      (tensor.support.entry row column).map (shift offset) := by
  simp only [support, Support.entry, shift_entries, columns_shift, List.getElem?_toArray,
    List.map_map, List.getElem?_map]
  cases tensor.entries[row * tensor.columns + column]? with
  | none => rfl
  | some entry =>
      simp only [Option.map_some, Option.join_some, Function.comp_apply, Expr.isZero_shift]
      split <;> rfl

theorem squareSize_shift (operation : TensorOperation) :
    squareSize operation (shift offset tensor) = squareSize operation tensor := rfl

@[simp] theorem determinant_shift :
    (shift offset tensor).determinant = shift offset tensor.determinant := by
  rw [determinant_eq, determinant_eq, squareSize_shift]
  cases squareSize .determinant tensor with
  | error error => rfl
  | ok size =>
      exact congrArg Except.ok (minor_shift offset (support_shift offset tensor) _ _)

@[simp] theorem inverse_shift : (shift offset tensor).inverse = shift offset tensor.inverse := by
  rw [inverse_eq, inverse_eq, squareSize_shift]
  cases squareSize .inverse tensor with
  | error error => rfl
  | ok size =>
      have minors := minor_shift offset (support_shift offset tensor)
      have cofactor : ∀ row column, Expr.product [.number (signOf ((row + column) % 2 = 0)),
          minor (shift offset tensor).support.entry ((List.range size).erase column)
            ((List.range size).erase row),
          (minor (shift offset tensor).support.entry (List.range size) (List.range size)).reciprocal] =
            shift offset (Expr.product [.number (signOf ((row + column) % 2 = 0)),
              minor tensor.support.entry ((List.range size).erase column)
                ((List.range size).erase row),
              (minor tensor.support.entry (List.range size) (List.range size)).reciprocal]) := by
        intro row column
        simp [minors, ← Expr.product_shift]
      change (do
        if (minor (shift offset tensor).support.entry (List.range size) (List.range size)).isZero then
          throw .singular
        return build size size _ : Except AlgebraError (Tensor κ)) = _
      rw [build_shift offset size size cofactor, minors, Expr.isZero_shift]
      change _ = shift offset (do
        if (minor tensor.support.entry (List.range size) (List.range size)).isZero then
          throw .singular
        return build size size _ : Except AlgebraError (Tensor κ))
      cases (minor tensor.support.entry (List.range size) (List.range size)).isZero <;> rfl

end Tensor

namespace Symbol

variable (offset : Nat) (symbol : Symbol)

@[simp] theorem toExpr_shift :
    ((shift offset symbol).toExpr : Except AlgebraError (Expr κ)) = shift offset symbol.toExpr := by
  simp only [toExpr, shift_shape, shift_name]
  split <;> simp

@[simp] theorem entry_shift (row column : Nat) :
    ((shift offset symbol).entry row column : Except AlgebraError (Expr κ)) =
      shift offset (symbol.entry row column) := by
  simp only [entry, shift_shape, atomAt_shift]
  split <;> simp

@[simp] theorem entryAt_shift (index : Nat) :
    ((shift offset symbol).entryAt index : Except AlgebraError (Expr κ)) =
      shift offset (symbol.entryAt index) :=
  entry_shift offset symbol _ _

end Symbol

instance : Numbered (PlanePoint κ) := ⟨fun offset point =>
  ⟨shift offset point.x, shift offset point.y⟩⟩

namespace PlanePoint

variable (offset : Nat) (p q : PlanePoint κ)

@[simp] theorem shift_x : (shift offset p).x = shift offset p.x := rfl

@[simp] theorem shift_y : (shift offset p).y = shift offset p.y := rfl

theorem ext_shift {p' : PlanePoint κ} (x : p'.x = shift offset p.x) (y : p'.y = shift offset p.y) :
    p' = shift offset p := by
  cases p'
  cases x
  cases y
  rfl

@[simp] theorem project_shift (axis : Axis) (tensor : Tensor κ) :
    project axis (shift offset tensor) = shift offset (project axis tensor) := by
  refine bind_shift offset (Tensor.entryAt_shift offset tensor _) fun x => ?_
  exact bind_shift offset (Tensor.entryAt_shift offset tensor _) fun y => rfl

@[simp] theorem add_shift : shift offset p + shift offset q = shift offset (p + q) :=
  ext_shift offset _ (Expr.add_shift offset p.x q.x) (Expr.add_shift offset p.y q.y)

@[simp] theorem sub_shift : shift offset p - shift offset q = shift offset (p - q) :=
  ext_shift offset _ (Expr.sub_shift offset p.x q.x) (Expr.sub_shift offset p.y q.y)

@[simp] theorem scale_shift (factor : Expr κ) :
    (shift offset p).scale (shift offset factor) = shift offset (p.scale factor) :=
  ext_shift offset _ (Expr.mul_shift offset p.x factor) (Expr.mul_shift offset p.y factor)

@[simp] theorem dot_shift : (shift offset p).dot (shift offset q) = shift offset (p.dot q) := by
  simp [dot]

@[simp] theorem lengthSquared_shift :
    (shift offset p).lengthSquared = shift offset p.lengthSquared := dot_shift offset p p

@[simp] theorem length_shift : (shift offset p).length = shift offset p.length := by
  simp [length]

@[simp] theorem angle_shift : (shift offset p).angle = shift offset p.angle := by
  simp [angle]

@[simp] theorem rotate_shift (angle : Expr κ) :
    (shift offset p).rotate (shift offset angle) = shift offset (p.rotate angle) :=
  ext_shift offset _ (by simp [rotate]) (by simp [rotate])

@[simp] theorem perpendicular_shift :
    (shift offset p).perpendicular = shift offset p.perpendicular :=
  ext_shift offset _ (Expr.neg_shift offset p.y) rfl

end PlanePoint

section Links

variable (offset : Nat)

theorem Circle.intersection_shift (firstCenter secondCenter : PlanePoint κ)
    (firstRadius secondRadius : Expr κ) (sign : κ) :
    intersection ⟨shift offset firstCenter, shift offset firstRadius⟩
        ⟨shift offset secondCenter, shift offset secondRadius⟩ sign =
      shift offset (intersection ⟨firstCenter, firstRadius⟩ ⟨secondCenter, secondRadius⟩ sign) := by
  have twice : ∀ expr : Expr κ, Expr.integer 2 * shift offset expr =
      shift offset (Expr.integer 2 * expr) := fun expr => Expr.number_mul_shift offset expr _
  simp [intersection, twice]

theorem Loop.FourBar.follow_shift (crankPivot crank coupler rockerPivot rocker : PlanePoint κ)
    (sign : κ) (angle : Expr κ) :
    FourBar.follow ⟨shift offset crankPivot, shift offset crank, shift offset coupler,
        shift offset rockerPivot, shift offset rocker⟩ sign (shift offset angle) =
      shift offset (FourBar.follow ⟨crankPivot, crank, coupler, rockerPivot, rocker⟩ sign angle) := by
  simp [follow, Circle.intersection_shift]

theorem Loop.PivotedSlider.reach_shift (rest direction target : PlanePoint κ) :
    PivotedSlider.reach ⟨shift offset rest, shift offset direction⟩ (shift offset target) =
      shift offset (PivotedSlider.reach ⟨rest, direction⟩ target) := by
  simp [reach]

theorem Loop.SlidingRod.reach_shift (direction rod target : PlanePoint κ) (sign : κ) :
    SlidingRod.reach ⟨shift offset direction, shift offset rod⟩ sign (shift offset target) =
      shift offset (SlidingRod.reach ⟨direction, rod⟩ sign target) := by
  simp [reach]

theorem Loop.TwoLinkArm.reach_shift (pivot first second target : PlanePoint κ) (sign : κ) :
    TwoLinkArm.reach ⟨shift offset pivot, shift offset first, shift offset second⟩ sign
        (shift offset target) =
      shift offset (TwoLinkArm.reach ⟨pivot, first, second⟩ sign target) := by
  simp [reach, Circle.intersection_shift]

end Links

end Mechanism
