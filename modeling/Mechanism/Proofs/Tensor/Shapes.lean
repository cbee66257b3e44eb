import Mechanism.Axis
import Mechanism.Double
import Mechanism.Proofs.Simplifier
import Mechanism.Proofs.Tensor.Determinant

/-!
The shapes of tensors. All that the operations give has as many entries as its shape has places, and a
shape that its dimensions determine. So whatever an operation looks up by a computed position is there,
also where there are no rows or no columns: operations that stop at a position out of bounds never do.
-/

namespace Mechanism.Tensor

variable {κ : Type} [Scalar κ]

/-! ### Operations that stop at a position out of bounds -/

def look? (tensor : Tensor κ) (row column : Nat) : Option (Expr κ) :=
  tensor.entries[row * tensor.columns + column]?

def put? (entries : List (Expr κ)) (position : Nat) (expr : Expr κ) : Option (List (Expr κ)) :=
  if position < entries.length then some (entries.set position expr) else none

def build? (rows columns : Nat) (entryOf : Nat → Nat → Option (Expr κ)) : Option (Tensor κ) := do
  let entries ← (Shape.ofDimensions rows columns).places.mapM fun place => entryOf place.1 place.2
  return ⟨Shape.ofDimensions rows columns, entries⟩

def entry? (tensor : Tensor κ) (row column : Nat) : Option (Except AlgebraError (Expr κ)) :=
  if tensor.shape.contains row column then (tensor.look? row column).map .ok
  else some (.error (.outOfBounds row column tensor.shape))

def entryAt? (tensor : Tensor κ) (index : Nat) : Option (Except AlgebraError (Expr κ)) :=
  tensor.entry? (tensor.shape.place index).1 (tensor.shape.place index).2

def toExpr? (tensor : Tensor κ) : Option (Except AlgebraError (Expr κ)) :=
  if tensor.shape.isScalar then tensor.entries[0]?.map .ok
  else some (.error (.notScalar "value" tensor.shape))

def transpose? (tensor : Tensor κ) : Option (Tensor κ) :=
  build? tensor.columns tensor.rows fun row column => tensor.look? column row

def multiply? (left right : Tensor κ) : Option (Tensor κ) :=
  build? left.rows right.columns fun row column => do
    let terms ← (List.range left.columns).mapM fun inner => do
      return (← left.look? row inner) * (← right.look? inner column)
    return Expr.sum terms

def matmul? (left right : Tensor κ) : Option (Except AlgebraError (Tensor κ)) :=
  if left.shape.isScalar then left.entries[0]?.map fun factor => .ok (right.scale factor)
  else if right.shape.isScalar then right.entries[0]?.map fun factor => .ok (left.scale factor)
  else if left.columns ≠ right.rows then
    some (.error (.shapeMismatch .matmul left.shape right.shape))
  else (left.multiply? right).map .ok

def cross? (left right : Tensor κ) : Option (Except AlgebraError (Tensor κ)) :=
  if left.shape = .vector 3 ∧ right.shape = .vector 3 then do
    let a ← left.entries[0]?
    let b ← left.entries[1]?
    let c ← left.entries[2]?
    let x ← right.entries[0]?
    let y ← right.entries[1]?
    let z ← right.entries[2]?
    return .ok (ofColumn [b * z - c * y, c * x - a * z, a * y - b * x])
  else some (.error (.shapeMismatch .cross left.shape right.shape))

def select? (tensor : Tensor κ) (indices : List Nat) : Option (Except AlgebraError (Tensor κ)) := do
  let found ← indices.mapM tensor.entryAt?
  return (found.mapM id).map ofColumn

def columnRange? (tensor : Tensor κ) (first last : Nat) :
    Option (Except AlgebraError (Tensor κ)) :=
  if tensor.columns < last || last < first then some (.error (.outOfBounds 0 last tensor.shape))
  else
    (build? tensor.rows (last - first) fun row column => tensor.look? row (first + column)).map .ok

def alternately? (contribution : Bool → Nat → Option (Option (Expr κ))) :
    Bool → List Nat → Option (List (Expr κ))
  | _, [] => some []
  | positive, item :: items => do
    let term ← contribution positive item
    let terms ← alternately? contribution (!positive) items
    return term.toList ++ terms

def minor? (lookUp : Nat → Nat → Option (Expr κ)) : List Nat → List Nat → Option (Expr κ)
  | [], _ => some .one
  | row :: rows, columns => do
    let terms ← alternately? (fun positive column => do
      let entry ← lookUp row column
      if entry.isZero then return none
      let below ← minor? lookUp rows (columns.erase column)
      return some (Expr.product [.number (signOf positive), entry, below])) true columns
    return Expr.sum terms

def onSquare? {β : Type} (operation : TensorOperation) (tensor : Tensor κ)
    (next : Nat → Option (Except AlgebraError β)) : Option (Except AlgebraError β) :=
  match squareSize operation tensor with
  | .error error => some (.error error)
  | .ok size => next size

def determinant? (tensor : Tensor κ) : Option (Except AlgebraError (Expr κ)) :=
  tensor.onSquare? .determinant fun size =>
    (minor? tensor.look? (List.range size) (List.range size)).map .ok

/-- Entries are computed one after the other, and each is put at its position. -/
def putAll? {α : Type} (position : α → Nat) (compute : α → Option (Expr κ)) (items : List α)
    (entries : List (Expr κ)) : Option (List (Expr κ)) :=
  items.foldlM (fun entries item => do
    let expr ← compute item
    put? entries (position item) expr) entries

def cofactor? (tensor : Tensor κ) (size : Nat) (factor : Expr κ) (place : Nat × Nat) :
    Option (Expr κ) := do
  let minor ← minor? tensor.look? ((List.range size).erase place.1) ((List.range size).erase place.2)
  return Expr.product [.number (signOf ((place.1 + place.2) % 2 = 0)), minor, factor]

/-- The cofactors are computed row by row, and each is put at the mirrored place. -/
def inverse? (tensor : Tensor κ) : Option (Except AlgebraError (Tensor κ)) :=
  tensor.onSquare? .inverse fun size => do
    let whole ← minor? tensor.look? (List.range size) (List.range size)
    if whole.isZero then return .error .singular
    let entries ← putAll? (fun place => place.2 * size + place.1)
      (tensor.cofactor? size whole.reciprocal) (squarePlaces size)
      (List.replicate (size * size) .zero)
    return .ok ⟨Shape.ofDimensions size size, entries⟩

/-! ### Operations and what is obtained through them -/

/-- The operations on tensors, with their operands. -/
inductive Operation (κ : Type) [Scalar κ] where
  | ofExpr (expr : Expr κ)
  | ofColumn (entries : List (Expr κ))
  | matrix (rows columns : Nat) (entries : List (Expr κ))
  | ofRows (lines : List (List (Expr κ)))
  | ofNumbers (shape : Shape) (values : List κ)
  | zeros (rows columns : Nat)
  | identity (size : Nat)
  | ofSymbol (symbol : Symbol)
      (canonical : symbol.shape = Shape.ofDimensions symbol.shape.rows symbol.shape.columns)
  | rotation (axis : Axis) (angle : Expr κ)
  | entry (tensor : Tensor κ) (row column : Nat)
  | entryAt (tensor : Tensor κ) (index : Nat)
  | toExpr (tensor : Tensor κ)
  | map (change : Expr κ → Expr κ) (tensor : Tensor κ)
  | substitute (replacement : Atom → Option (Expr κ)) (tensor : Tensor κ)
  | transpose (tensor : Tensor κ)
  | add (left right : Tensor κ)
  | sub (left right : Tensor κ)
  | scale (tensor : Tensor κ) (factor : Expr κ)
  | negate (tensor : Tensor κ)
  | matmul (left right : Tensor κ)
  | dot (left right : Tensor κ)
  | norm (tensor : Tensor κ)
  | cross (left right : Tensor κ)
  | vstack (parts : List (Tensor κ))
  | select (tensor : Tensor κ) (indices : List Nat)
  | columnRange (tensor : Tensor κ) (first last : Nat)
  | jacobian (tensor : Tensor κ) (unknowns : List Atom)
  | determinant (tensor : Tensor κ)
  | inverse (tensor : Tensor κ)

namespace Operation

def operands : Operation κ → List (Tensor κ)
  | entry tensor _ _ | entryAt tensor _ | toExpr tensor | map _ tensor | substitute _ tensor
  | transpose tensor | scale tensor _ | negate tensor | norm tensor | select tensor _
  | columnRange tensor _ _ | jacobian tensor _ | determinant tensor | inverse tensor => [tensor]
  | add left right | sub left right | matmul left right | dot left right | cross left right =>
    [left, right]
  | vstack parts => parts
  | _ => []

/-- The result; an expression counts as the scalar that it makes. -/
def result : Operation κ → Except AlgebraError (Tensor κ)
  | ofExpr expr => .ok (.ofExpr expr)
  | ofColumn entries => .ok (.ofColumn entries)
  | matrix rows columns entries => Tensor.matrix rows columns entries
  | ofRows lines => Tensor.ofRows lines
  | ofNumbers shape values => Tensor.ofNumbers shape values
  | zeros rows columns => .ok (.zeros rows columns)
  | identity size => .ok (.identity size)
  | ofSymbol symbol _ => .ok (.ofSymbol symbol)
  | rotation axis angle => .ok (axis.rotation angle)
  | entry tensor row column => (tensor.entry row column).map .ofExpr
  | entryAt tensor index => (tensor.entryAt index).map .ofExpr
  | toExpr tensor => tensor.toExpr.map .ofExpr
  | map change tensor => .ok (tensor.map change)
  | substitute replacement tensor => .ok (tensor.substitute replacement)
  | transpose tensor => .ok tensor.transpose
  | add left right => left.add right
  | sub left right => left.sub right
  | scale tensor factor => .ok (tensor.scale factor)
  | negate tensor => .ok tensor.negate
  | matmul left right => left.matmul right
  | dot left right => (left.dot right).map .ofExpr
  | norm tensor => tensor.norm.map .ofExpr
  | cross left right => left.cross right
  | vstack parts => Tensor.vstack parts
  | select tensor indices => tensor.select indices
  | columnRange tensor first last => tensor.columnRange first last
  | jacobian tensor unknowns => tensor.jacobian unknowns
  | determinant tensor => tensor.determinant.map .ofExpr
  | inverse tensor => tensor.inverse

/-- The result, where every look-up by a computed position stops the operation if it is out of
bounds. The other operations go through their operands entry by entry. -/
def checked : Operation κ → Option (Except AlgebraError (Tensor κ))
  | entry tensor row column => (tensor.entry? row column).map (·.map .ofExpr)
  | entryAt tensor index => (tensor.entryAt? index).map (·.map .ofExpr)
  | toExpr tensor => tensor.toExpr?.map (·.map .ofExpr)
  | transpose tensor => tensor.transpose?.map .ok
  | matmul left right => left.matmul? right
  | cross left right => left.cross? right
  | select tensor indices => tensor.select? indices
  | columnRange tensor first last => tensor.columnRange? first last
  | determinant tensor => tensor.determinant?.map (·.map .ofExpr)
  | inverse tensor => tensor.inverse?
  | other => some other.result

end Operation

/-- The tensors that operations give, and what becomes of these when their entries are changed by a
function that may refuse them. -/
inductive Obtainable : Tensor κ → Prop where
  | result (operation : Operation κ)
      (operands : ∀ operand ∈ operation.operands, Obtainable operand) {tensor : Tensor κ}
      (computed : operation.result = .ok tensor) : Obtainable tensor
  | changed {ε : Type} (change : Expr κ → Except ε (Expr κ)) {tensor result : Tensor κ}
      (obtainable : Obtainable tensor) (computed : tensor.mapM? change = .ok result) :
      Obtainable result

/-! ### Shapes of results -/

theorem wellShaped_of_length {rows columns : Nat} {entries : List (Expr κ)}
    (length : entries.length = rows * columns) :
    (⟨Shape.ofDimensions rows columns, entries⟩ : Tensor κ).WellShaped where
  length_eq := by simpa [Tensor.length, Tensor.rows, Tensor.columns] using length
  shape_eq := by simp [Tensor.rows, Tensor.columns]

theorem wellShaped_build (rows columns : Nat) (entryOf : Nat → Nat → Expr κ) :
    (build rows columns entryOf).WellShaped :=
  wellShaped_of_length (length_build rows columns entryOf)

theorem wellShaped_ofColumn (entries : List (Expr κ)) : (ofColumn entries).WellShaped :=
  wellShaped_of_length (Nat.mul_one entries.length).symm

theorem wellShaped_matrix {rows columns : Nat} {entries : List (Expr κ)} {result : Tensor κ}
    (made : matrix rows columns entries = .ok result) : result.WellShaped := by
  unfold matrix at made
  split at made
  · rename_i length
    cases made
    exact wellShaped_of_length length
  · cases made

theorem wellShaped_ofExpr {expr : Except AlgebraError (Expr κ)} {result : Tensor κ}
    (made : expr.map .ofExpr = .ok result) : result.WellShaped := by
  cases expr with
  | error error => cases made
  | ok expr =>
      cases made
      exact ⟨rfl, rfl⟩

theorem WellShaped.of_length {tensor : Tensor κ} (shaped : tensor.WellShaped)
    {entries : List (Expr κ)} (length : entries.length = tensor.entries.length) :
    (⟨tensor.shape, entries⟩ : Tensor κ).WellShaped :=
  ⟨length.trans shaped.length_eq, shaped.shape_eq⟩

theorem WellShaped.map {tensor : Tensor κ} (shaped : tensor.WellShaped)
    (change : Expr κ → Expr κ) : (tensor.map change).WellShaped :=
  shaped.of_length (List.length_map _)

theorem WellShaped.zipWith {left right result : Tensor κ} (first : left.WellShaped)
    (second : right.WellShaped) {operation : TensorOperation} {combine : Expr κ → Expr κ → Expr κ}
    (made : zipWith operation combine left right = .ok result) : result.WellShaped := by
  unfold Tensor.zipWith at made
  split at made
  · rename_i same
    cases made
    have length : left.entries.length = right.entries.length :=
      calc left.entries.length = left.rows * left.columns := first.length_eq
        _ = right.rows * right.columns := by rw [rows, columns, rows, columns, same]
        _ = right.entries.length := second.length_eq.symm
    exact first.of_length (by rw [List.length_zipWith, length, Nat.min_self])
  · cases made

theorem WellShaped.matmul {left right result : Tensor κ} (first : left.WellShaped)
    (second : right.WellShaped) (made : left.matmul right = .ok result) : result.WellShaped := by
  unfold Tensor.matmul at made
  split at made
  · cases made
    exact second.map _
  split at made
  · cases made
    exact first.map _
  split at made
  · cases made
  · cases made
    exact wellShaped_build _ _ _

theorem wellShaped_cross {left right result : Tensor κ} (made : left.cross right = .ok result) :
    result.WellShaped := by
  unfold cross at made
  split at made
  · split at made
    · cases made
      exact wellShaped_ofColumn _
    · cases made
  · cases made

theorem length_stacked {parts : List (Tensor κ)} {width : Nat}
    (shaped : ∀ part ∈ parts, part.WellShaped) (fits : ∀ part ∈ parts, part.columns = width) :
    (parts.flatMap entries).length = total (parts.map rows) * width := by
  induction parts with
  | nil => simp [total]
  | cons head tail ih =>
      obtain ⟨here, later⟩ := List.forall_mem_cons.mp shaped
      obtain ⟨first, rest⟩ := List.forall_mem_cons.mp fits
      rw [List.flatMap_cons, List.length_append, ih later rest, List.map_cons, total, Nat.add_mul,
        ← first]
      exact congrArg (· + _) here.length_eq

theorem wellShaped_vstack {parts : List (Tensor κ)} {result : Tensor κ}
    (shaped : ∀ part ∈ parts, part.WellShaped) (made : vstack parts = .ok result) :
    result.WellShaped := by
  cases parts with
  | nil =>
      cases made
      exact ⟨rfl, rfl⟩
  | cons first rest =>
      simp only [vstack] at made
      split at made
      · cases made
      rename_i fits
      cases made
      refine wellShaped_of_length (length_stacked shaped (List.forall_mem_cons.mpr ⟨rfl, ?_⟩))
      simpa using fits

theorem wellShaped_select {tensor result : Tensor κ} {indices : List Nat}
    (made : tensor.select indices = .ok result) : result.WellShaped := by
  obtain ⟨entries, _, same⟩ := bind_eq_ok.mp made
  cases same
  exact wellShaped_ofColumn entries

theorem wellShaped_columnRange {tensor result : Tensor κ} {first last : Nat}
    (made : tensor.columnRange first last = .ok result) : result.WellShaped := by
  unfold columnRange at made
  split at made
  · cases made
  · cases made
    exact wellShaped_build _ _ _

theorem wellShaped_jacobian {tensor result : Tensor κ} {unknowns : List Atom}
    (made : tensor.jacobian unknowns = .ok result) : result.WellShaped := by
  unfold jacobian at made
  split at made
  · cases made
    exact wellShaped_of_length (by simp [List.length_flatMap, Tensor.length])
  · cases made

theorem wellShaped_inverse {tensor result : Tensor κ} (made : tensor.inverse = .ok result) :
    result.WellShaped := by
  rw [inverse_eq] at made
  obtain ⟨size, _, rest⟩ := bind_eq_ok.mp made
  simp only at rest
  split at rest
  · cases rest
  · cases rest
    exact wellShaped_build _ _ _

theorem WellShaped.mapM? {ε : Type} {change : Expr κ → Except ε (Expr κ)} {tensor result : Tensor κ}
    (shaped : tensor.WellShaped) (made : tensor.mapM? change = .ok result) : result.WellShaped := by
  obtain ⟨entries, changed, same⟩ := bind_eq_ok.mp made
  cases same
  exact shaped.of_length (Simplifier.mapM_eq_ok changed).length_eq.symm

theorem Operation.wellShaped (operation : Operation κ)
    (operands : ∀ operand ∈ operation.operands, operand.WellShaped) {tensor : Tensor κ}
    (computed : operation.result = .ok tensor) : tensor.WellShaped := by
  cases operation with
  | ofExpr expr => cases computed; exact ⟨rfl, rfl⟩
  | ofColumn entries => cases computed; exact wellShaped_ofColumn entries
  | matrix | ofNumbers => exact wellShaped_matrix computed
  | ofRows lines =>
      simp only [result, Tensor.ofRows] at computed
      split at computed
      · cases computed
      · exact wellShaped_matrix computed
  | zeros rows columns =>
      cases computed
      exact wellShaped_of_length List.length_replicate
  | identity size =>
      cases computed
      exact wellShaped_of_length (by simp)
  | ofSymbol symbol canonical =>
      cases computed
      exact ⟨length_ofSymbol symbol, canonical⟩
  | rotation axis angle =>
      cases computed
      cases axis <;> exact ⟨rfl, rfl⟩
  | entry | entryAt | toExpr | dot | norm | determinant => exact wellShaped_ofExpr computed
  | map change tensor => cases computed; exact (operands tensor List.mem_cons_self).map change
  | substitute replacement tensor =>
      cases computed
      exact (operands tensor List.mem_cons_self).map _
  | transpose tensor => cases computed; exact wellShaped_build _ _ _
  | add left right | sub left right =>
      exact (operands left List.mem_cons_self).zipWith (operands right (by simp [Operation.operands]))
        computed
  | scale tensor factor => cases computed; exact (operands tensor List.mem_cons_self).map _
  | negate tensor => cases computed; exact (operands tensor List.mem_cons_self).map _
  | matmul left right =>
      exact (operands left List.mem_cons_self).matmul (operands right (by simp [Operation.operands]))
        computed
  | cross left right => exact wellShaped_cross computed
  | vstack parts => exact wellShaped_vstack operands computed
  | select tensor indices => exact wellShaped_select computed
  | columnRange tensor first last => exact wellShaped_columnRange computed
  | jacobian tensor unknowns => exact wellShaped_jacobian computed
  | inverse tensor => exact wellShaped_inverse computed

theorem Obtainable.wellShaped {tensor : Tensor κ} (obtainable : Obtainable tensor) :
    tensor.WellShaped := by
  induction obtainable with
  | result operation _ computed shaped => exact operation.wellShaped shaped computed
  | changed _ _ computed shaped => exact shaped.mapM? computed

/-! ### Look-ups -/

namespace WellShaped

variable {tensor left right : Tensor κ}

theorem part_at (shaped : tensor.WellShaped) {row column : Nat} (inside : row < tensor.rows)
    (within : column < tensor.columns) :
    tensor.look? row column = some (tensor.part row column) := by
  have bound : row * tensor.columns + column < tensor.entries.length :=
    (flatIndex_lt ⟨row, inside⟩ ⟨column, within⟩).trans_eq shaped.length_eq.symm
  rw [look?, part_eq, component, Shape.flatIndex, ← columns, List.getElem?_eq_getElem bound,
    Option.getD_some]

theorem first (shaped : tensor.WellShaped) (scalar : tensor.shape.isScalar = true) :
    tensor.entries[0]? = some (tensor.part 0 0) := by
  have shape : tensor.shape = .scalar := eq_of_beq scalar
  have found := shaped.part_at (by simp [rows, shape, Shape.rows] : 0 < tensor.rows)
    (by simp [columns, shape, Shape.columns] : 0 < tensor.columns)
  rwa [look?, Nat.zero_mul] at found

theorem build?_eq {rows columns : Nat} {entryOf? : Nat → Nat → Option (Expr κ)}
    (entryOf : Nat → Nat → Expr κ)
    (found : ∀ row < rows, ∀ column < columns, entryOf? row column = some (entryOf row column)) :
    build? rows columns entryOf? = some (build rows columns entryOf) := by
  have entries : ((Shape.ofDimensions rows columns).places.mapM fun place =>
      entryOf? place.1 place.2) = some (build rows columns entryOf).entries := by
    rw [mapM_eq_some, entries_build, List.map_map]
    refine List.map_congr_left fun place member => ?_
    obtain ⟨row, inside, other⟩ := List.mem_flatMap.mp member
    obtain ⟨column, within, rfl⟩ := List.mem_map.mp other
    simp only [List.mem_range, Shape.rows_ofDimensions, Shape.columns_ofDimensions] at inside within
    exact found row inside column within
  rw [build?, entries]
  rfl

theorem entry?_eq (shaped : tensor.WellShaped) (row column : Nat) :
    tensor.entry? row column = some (tensor.entry row column) := by
  unfold entry? entry
  cases contained : tensor.shape.contains row column with
  | false => rfl
  | true =>
      obtain ⟨inside, within⟩ := Shape.contains_iff.mp contained
      have found := shaped.part_at inside within
      have same : tensor.entries[tensor.shape.flatIndex row column]? =
          some (tensor.part row column) := found
      rw [if_pos rfl, found, same]
      rfl

theorem toExpr?_eq (shaped : tensor.WellShaped) : tensor.toExpr? = some tensor.toExpr := by
  unfold toExpr?
  cases scalar : tensor.shape.isScalar with
  | true =>
      have found := shaped.first scalar
      have shape : tensor.shape = .scalar := eq_of_beq scalar
      rw [if_pos rfl, found]
      obtain ⟨_, entries⟩ := tensor
      cases shape
      cases entries with
      | nil => cases found
      | cons head tail =>
          cases found
          rfl
  | false =>
      rw [if_neg Bool.false_ne_true]
      unfold toExpr
      split
      · rename_i shape _
        rw [shape] at scalar
        cases scalar
      · rfl

theorem transpose?_eq (shaped : tensor.WellShaped) : tensor.transpose? = some tensor.transpose :=
  build?_eq _ fun _ inside _ within => shaped.part_at within inside

theorem multiply?_eq (first : left.WellShaped) (second : right.WellShaped)
    (fits : left.columns = right.rows) : left.multiply? right = some (left.multiply right) := by
  refine build?_eq _ fun row inside column within => ?_
  have terms : ((List.range left.columns).mapM fun inner => do
      return (← left.look? row inner) * (← right.look? inner column)) =
      some ((List.range left.columns).map fun inner =>
        left.part row inner * right.part inner column) := by
    rw [mapM_eq_some, List.map_map]
    refine List.map_congr_left fun inner member => ?_
    have bound := List.mem_range.mp member
    rw [first.part_at inside bound, second.part_at (fits ▸ bound) within]
    rfl
  rw [terms]
  rfl

theorem matmul?_eq (first : left.WellShaped) (second : right.WellShaped) :
    left.matmul? right = some (left.matmul right) := by
  unfold matmul? Tensor.matmul
  split
  · rename_i scalar
    rw [first.first scalar]
    rfl
  split
  · rename_i scalar
    rw [second.first scalar]
    rfl
  split
  · rfl
  · rename_i fits
    rw [multiply?_eq first second (not_ne_iff.mp fits)]
    rfl

theorem cross?_eq (first : left.WellShaped) (second : right.WellShaped) :
    left.cross? right = some (left.cross right) := by
  have three (tensor : Tensor κ) (shaped : tensor.WellShaped) (vector : tensor.shape = .vector 3) :
      ∃ a b c, tensor.entries = [a, b, c] := by
    have length : tensor.entries.length = 3 := by
      have size := shaped.length_eq
      rwa [rows, columns, vector] at size
    exact List.length_eq_three.mp length
  unfold cross?
  split
  · rename_i vectors
    obtain ⟨a, b, c, leftEntries⟩ := three left first vectors.1
    obtain ⟨x, y, z, rightEntries⟩ := three right second vectors.2
    unfold cross
    rw [leftEntries, rightEntries]
    simp only [vectors, and_self, if_true]
    rfl
  · rename_i others
    unfold cross
    split
    · rw [if_neg others]
    · rfl

theorem select?_eq (shaped : tensor.WellShaped) (indices : List Nat) :
    tensor.select? indices = some (tensor.select indices) := by
  have found : indices.mapM tensor.entryAt? = some (indices.map tensor.entryAt) := by
    rw [mapM_eq_some, List.map_map]
    exact List.map_congr_left fun index _ => shaped.entry?_eq _ _
  have each : (indices.map tensor.entryAt).mapM id = indices.mapM tensor.entryAt :=
    List.mapM_map
  rw [select?, found]
  change some (((indices.map tensor.entryAt).mapM id).map ofColumn) = _
  rw [each, select]
  cases indices.mapM tensor.entryAt <;> rfl

theorem columnRange?_eq (shaped : tensor.WellShaped) (first last : Nat) :
    tensor.columnRange? first last = some (tensor.columnRange first last) := by
  unfold columnRange? columnRange
  split
  · rfl
  · rename_i fits
    simp only [Bool.or_eq_true, decide_eq_true_eq, not_or, Nat.not_lt] at fits
    rw [build?_eq (fun row column => tensor.part row (first + column))
      fun row inside column within => shaped.part_at inside (by omega)]
    rfl

/-! ### Minors -/

theorem alternately?_eq {contribution? : Bool → Nat → Option (Option (Expr κ))}
    (contribution : Bool → Nat → Option (Expr κ)) {items : List Nat}
    (found : ∀ item ∈ items, ∀ positive,
      contribution? positive item = some (contribution positive item)) (positive : Bool) :
    alternately? contribution? positive items = some (alternately contribution positive items) := by
  induction items generalizing positive with
  | nil => rfl
  | cons head tail ih =>
      obtain ⟨first, later⟩ := List.forall_mem_cons.mp found
      rw [alternately?, first, ih later]
      rfl

theorem minor?_eq {lookUp entryOf : Nat → Nat → Option (Expr κ)} {rows columns : List Nat}
    (found : ∀ row ∈ rows, ∀ column ∈ columns, ∃ entry, lookUp row column = some entry ∧
      entryOf row column = if entry.isZero then none else some entry) :
    minor? lookUp rows columns = some (minor entryOf rows columns) := by
  induction rows generalizing columns with
  | nil => rfl
  | cons row rows ih =>
      obtain ⟨first, later⟩ := List.forall_mem_cons.mp found
      rw [minor?, minor, alternately?_eq (fun positive column =>
        (entryOf row column).map fun entry =>
          Expr.product [.number (signOf positive), entry, minor entryOf rows (columns.erase column)])]
      · rfl
      intro column member positive
      obtain ⟨entry, looked, same⟩ := first column member
      have below : minor? lookUp rows (columns.erase column) =
          some (minor entryOf rows (columns.erase column)) :=
        ih fun row among other inside => later row among other (List.mem_of_mem_erase inside)
      rw [looked, same]
      cases zero : entry.isZero with
      | true => simp [zero]
      | false => simp [zero, below]

theorem onSquare?_eq {β : Type} {operation : TensorOperation}
    {next? : Nat → Option (Except AlgebraError β)} {next : Nat → Except AlgebraError β}
    (found : tensor.rows = tensor.columns → next? tensor.rows = some (next tensor.rows)) :
    tensor.onSquare? operation next? = some (squareSize operation tensor >>= next) := by
  unfold onSquare?
  cases square : squareSize operation tensor with
  | error error => rfl
  | ok size =>
      obtain ⟨rfl, dimensions⟩ := squareSize_ok square
      exact found dimensions

theorem putAll?_eq {α : Type} {position : α → Nat} {compute : α → Option (Expr κ)}
    {items : List α} {entries final : List (Expr κ)}
    (computed : ∀ item ∈ items, ∃ expr, compute item = some expr ∧
      final[position item]? = some expr)
    (length : entries.length = final.length) :
    ∃ result, putAll? position compute items entries = some result ∧
      result.length = final.length ∧ ∀ index,
        entries[index]? = final[index]? ∨ (∃ item ∈ items, position item = index) →
          result[index]? = final[index]? := by
  induction items generalizing entries with
  | nil => exact ⟨entries, rfl, length, by simp⟩
  | cons head tail ih =>
      obtain ⟨⟨expr, found, stands⟩, later⟩ := List.forall_mem_cons.mp computed
      have bound : position head < entries.length := by
        rw [length]
        exact (List.getElem?_eq_some_iff.mp stands).1
      have kept : (entries.set (position head) expr).length = final.length := by
        rw [List.length_set, length]
      obtain ⟨result, filled, same, right⟩ := ih later kept
      refine ⟨result, ?_, same, fun index known => right index ?_⟩
      · simp only [putAll?, List.foldlM_cons, found, put?, if_pos bound, Option.bind_eq_bind,
          Option.bind_some]
        exact filled
      · by_cases here : position head = index
        · subst here
          exact Or.inl (by rw [List.getElem?_set_self bound, stands])
        · rw [List.getElem?_set_ne here]
          refine known.imp_right ?_
          rintro ⟨item, member, rfl⟩
          rcases List.mem_cons.mp member with rfl | later
          · exact absurd rfl here
          · exact ⟨item, later, rfl⟩

theorem getElem?_build {rows columns row column : Nat} (entryOf : Nat → Nat → Expr κ)
    (inside : row < rows) (within : column < columns) :
    (build rows columns entryOf).entries[row * columns + column]? = some (entryOf row column) := by
  have below : row < (build rows columns entryOf).rows := by simpa [Tensor.rows] using inside
  have beside : column < (build rows columns entryOf).columns := by
    simpa [Tensor.columns] using within
  have found := (wellShaped_build rows columns entryOf).part_at below beside
  rw [part_build _ inside within] at found
  simpa [look?, Tensor.columns] using found

section Square

variable (shaped : tensor.WellShaped) (square : tensor.rows = tensor.columns)

include shaped square

theorem minor?_square {rows columns : List Nat} (inside : ∀ row ∈ rows, row < tensor.rows)
    (within : ∀ column ∈ columns, column < tensor.rows) :
    minor? tensor.look? rows columns = some (minor tensor.support.entry rows columns) := by
  refine minor?_eq fun row among column member => ?_
  have found := shaped.part_at (inside row among) (square ▸ within column member)
  refine ⟨_, found, ?_⟩
  rw [look?] at found
  simp only [Support.entry, support, List.getElem?_toArray, List.getElem?_map, found,
    Option.map_some, Option.join_some]

theorem cofactors_eq (factor : Expr κ) :
    putAll? (fun place => place.2 * tensor.rows + place.1) (tensor.cofactor? tensor.rows factor)
      (squarePlaces tensor.rows) (List.replicate (tensor.rows * tensor.rows) .zero) =
    some (build tensor.rows tensor.rows fun row column =>
      Expr.product [.number (signOf ((row + column) % 2 = 0)),
        minor tensor.support.entry ((List.range tensor.rows).erase column)
          ((List.range tensor.rows).erase row), factor]).entries := by
  have below (place : Nat) : ∀ index ∈ (List.range tensor.rows).erase place, index < tensor.rows :=
    fun index member => List.mem_range.mp (List.mem_of_mem_erase member)
  have mem_places {row column : Nat} :
      (row, column) ∈ squarePlaces tensor.rows ↔ row < tensor.rows ∧ column < tensor.rows := by
    simp [squarePlaces]
  generalize result : (build tensor.rows tensor.rows _ : Tensor κ) = inverse
  have size : inverse.entries.length = tensor.rows * tensor.rows := by
    rw [← result, length_build]
  have computed : ∀ place ∈ squarePlaces tensor.rows, ∃ expr,
      tensor.cofactor? tensor.rows factor place = some expr ∧
        inverse.entries[place.2 * tensor.rows + place.1]? = some expr := by
    rintro ⟨row, column⟩ member
    obtain ⟨inside, within⟩ := mem_places.mp member
    refine ⟨Expr.product [.number (signOf ((row + column) % 2 = 0)),
      minor tensor.support.entry ((List.range tensor.rows).erase row)
        ((List.range tensor.rows).erase column), factor], ?_, ?_⟩
    · rw [cofactor?, minor?_square shaped square (below row) (below column)]
      rfl
    · rw [← result, getElem?_build _ within inside, Nat.add_comm column row]
  have blank : (List.replicate (tensor.rows * tensor.rows) (.zero : Expr κ)).length =
      inverse.entries.length := by simp [size]
  obtain ⟨entries, filled, _, right⟩ := putAll?_eq computed blank
  rw [filled, Option.some.injEq]
  -- every position is that of a place, or beyond the entries
  refine List.ext_getElem? fun index => right index ?_
  rcases Nat.lt_or_ge index (tensor.rows * tensor.rows) with bound | beyond
  · have positive : 0 < tensor.rows := Nat.pos_of_mul_pos_left (Nat.zero_lt_of_lt bound)
    exact Or.inr ⟨(index % tensor.rows, index / tensor.rows),
      mem_places.mpr ⟨Nat.mod_lt _ positive, Nat.div_lt_of_lt_mul bound⟩,
      Nat.div_add_mod' index tensor.rows⟩
  · left
    rw [List.getElem?_eq_none (by rwa [List.length_replicate]),
      List.getElem?_eq_none (by rwa [size])]

end Square

theorem below_range {size : Nat} : ∀ index ∈ List.range size, index < size :=
  fun _ member => List.mem_range.mp member

theorem determinant?_eq (shaped : tensor.WellShaped) :
    tensor.determinant? = some tensor.determinant := by
  rw [determinant_eq]
  refine onSquare?_eq fun square => ?_
  rw [minor?_square shaped square below_range below_range]
  rfl

theorem inverse?_eq (shaped : tensor.WellShaped) : tensor.inverse? = some tensor.inverse := by
  rw [inverse_eq]
  refine onSquare?_eq fun square => ?_
  simp only [minor?_square shaped square below_range below_range, Option.bind_eq_bind,
    Option.bind_some]
  split
  · rfl
  · rw [cofactors_eq shaped square]
    rfl

end WellShaped

/-! ### Results -/

theorem Operation.checked_eq (operation : Operation κ)
    (operands : ∀ operand ∈ operation.operands, operand.WellShaped) :
    operation.checked = some operation.result := by
  cases operation with
  | entry tensor row column =>
      rw [checked, (operands tensor List.mem_cons_self).entry?_eq]
      rfl
  | entryAt tensor index =>
      rw [checked, entryAt?, (operands tensor List.mem_cons_self).entry?_eq]
      rfl
  | toExpr tensor =>
      rw [checked, (operands tensor List.mem_cons_self).toExpr?_eq]
      rfl
  | transpose tensor =>
      rw [checked, (operands tensor List.mem_cons_self).transpose?_eq]
      rfl
  | matmul left right =>
      exact (operands left List.mem_cons_self).matmul?_eq (operands right (by simp [Operation.operands]))
  | cross left right =>
      exact (operands left List.mem_cons_self).cross?_eq (operands right (by simp [Operation.operands]))
  | select tensor indices => exact (operands tensor List.mem_cons_self).select?_eq indices
  | columnRange tensor first last =>
      exact (operands tensor List.mem_cons_self).columnRange?_eq first last
  | determinant tensor =>
      rw [checked, (operands tensor List.mem_cons_self).determinant?_eq]
      rfl
  | inverse tensor => exact (operands tensor List.mem_cons_self).inverse?_eq
  | _ => rfl

/-- Tensors that can be obtained have as many entries as their shapes have places, and shapes that
their dimensions determine. No operation on them looks up a position that is not there: it gives such a
tensor or an error. -/
theorem obtainable_shaped : (∀ tensor : Tensor κ, Obtainable tensor → tensor.WellShaped) ∧
    ∀ operation : Operation κ, (∀ operand ∈ operation.operands, Obtainable operand) →
      operation.checked = some operation.result ∧
        ∀ tensor, operation.result = .ok tensor → Obtainable tensor ∧ tensor.WellShaped := by
  refine ⟨fun tensor obtainable => obtainable.wellShaped, fun operation operands => ⟨?_, ?_⟩⟩
  · exact operation.checked_eq fun operand member => (operands operand member).wellShaped
  · intro tensor computed
    have obtainable : Obtainable tensor := .result operation operands computed
    exact ⟨obtainable, obtainable.wellShaped⟩

namespace Hollow

def columns : Tensor Float := zeros 0 3

def symbol : Symbol := ⟨0, "a", .matrix 2 2, .real⟩

theorem obtainable_columns : Obtainable columns :=
  .result (.zeros 0 3) (List.forall_mem_nil _) rfl

theorem obtainable_transpose : Obtainable columns.transpose :=
  .result (.transpose columns) (List.forall_mem_singleton.mpr obtainable_columns) rfl

theorem obtainable_symbol : Obtainable (ofSymbol symbol : Tensor Float) :=
  .result (.ofSymbol symbol rfl) (List.forall_mem_nil _) rfl

/-- Three empty rows times three empty columns are nine sums of nothing, and a square of symbols is
inverted; neither looks up what is not there. -/
theorem shaped_products : (Operation.matmul columns.transpose columns).checked =
      some (.ok (columns.transpose.multiply columns)) ∧
    (columns.transpose.multiply columns).shape = .matrix 3 3 ∧
    (columns.transpose.multiply columns).length = 9 ∧
    (Operation.inverse (ofSymbol symbol : Tensor Float)).checked = some (ofSymbol symbol).inverse := by
  obtain ⟨_, each⟩ := obtainable_shaped (κ := Float)
  obtain ⟨checked, right⟩ := each (.matmul columns.transpose columns) (List.forall_mem_cons.mpr
    ⟨obtainable_transpose, List.forall_mem_singleton.mpr obtainable_columns⟩)
  obtain ⟨_, shaped⟩ := right _ rfl
  obtain ⟨inverted, _⟩ := each (.inverse (ofSymbol symbol))
    (List.forall_mem_singleton.mpr obtainable_symbol)
  exact ⟨checked, rfl, shaped.length_eq, inverted⟩

end Hollow

end Mechanism.Tensor
