import Mathlib.Data.List.Basic
import Mechanism.Proofs.Expr.Derivative
import Mechanism.Proofs.Expr.Uses
import Mechanism.Tensor.Algebra
import Mechanism.Tensor.Basic

/-!
Places of shapes, entries of tensors, and the atoms that tensors read. The entries of sums and
products, and their real values: a product with a factor that is literally zero is zero even where
the other factors have no value, so that entries which are only ever met by zeros need not be
defined.
-/

namespace Mechanism

namespace Shape

variable {shape : Shape} {row column index : Nat}

theorem contains_iff :
    shape.contains row column = true ↔ row < shape.rows ∧ column < shape.columns := by
  simp [contains]

theorem place_inside (bound : index < shape.size) :
    shape.contains (shape.place index).1 (shape.place index).2 = true ∧
      shape.flatIndex (shape.place index).1 (shape.place index).2 = index := by
  unfold size at bound
  have columns : 0 < shape.columns := by
    rcases Nat.eq_zero_or_pos shape.columns with none | some
    · rw [none, Nat.mul_zero] at bound
      omega
    · exact some
  have width : max shape.columns 1 = shape.columns := Nat.max_eq_left columns
  simp only [place, width]
  constructor
  · rw [contains_iff]
    exact ⟨Nat.div_lt_of_lt_mul (by rwa [Nat.mul_comm]), Nat.mod_lt _ columns⟩
  · rw [flatIndex, Nat.mul_comm]
    exact Nat.div_add_mod index shape.columns

theorem place_outside (bound : shape.size ≤ index) :
    shape.contains (shape.place index).1 (shape.place index).2 = false := by
  rw [← Bool.not_eq_true]
  intro inside
  obtain ⟨rowBound, columnBound⟩ := contains_iff.mp inside
  have columns : 0 < shape.columns := by omega
  have width : max shape.columns 1 = shape.columns := Nat.max_eq_left columns
  simp only [place, width] at rowBound
  unfold size at bound
  have below := (Nat.div_lt_iff_lt_mul columns).mp rowBound
  omega

@[simp] theorem length_places (shape : Shape) : shape.places.length = shape.size := by
  simp [places, size, List.length_flatMap]

theorem places_eq (shape : Shape) : shape.places = (List.range shape.size).map shape.place := by
  suffices rowwise : ∀ rows columns : Nat,
      ((List.range rows).flatMap fun row => (List.range columns).map fun column => (row, column)) =
        (List.range (rows * columns)).map fun index =>
          (index / max columns 1, index % max columns 1) from rowwise shape.rows shape.columns
  intro rows columns
  induction rows with
  | zero => simp
  | succ rows ih =>
      rw [List.range_succ, List.flatMap_append, ih, Nat.succ_mul, List.range_add, List.map_append]
      congr 1
      simp only [List.flatMap_cons, List.flatMap_nil, List.append_nil, List.map_map]
      apply List.map_congr_left
      intro column member
      have bound : column < columns := List.mem_range.mp member
      have width : max columns 1 = columns := Nat.max_eq_left (by omega)
      simp only [Function.comp_apply, width]
      rw [Nat.mul_comm, Nat.mul_add_div (by omega), Nat.div_eq_of_lt bound, Nat.mul_add_mod,
        Nat.mod_eq_of_lt bound, Nat.add_zero]

end Shape

def Atom.Within (atom : Atom) : Prop := atom.flatIndex < atom.symbol.shape.size

theorem Atom.within_whole {symbol : Symbol} (scalar : symbol.shape = .scalar) :
    (Atom.whole symbol).Within := by
  rw [Within, Atom.symbol, scalar]
  exact Nat.zero_lt_one

@[simp] theorem Symbol.symbol_atomAt (symbol : Symbol) (row column : Nat) :
    (symbol.atomAt row column).symbol = symbol := by
  unfold atomAt
  split <;> rfl

theorem Symbol.flatIndex_atomAt {symbol : Symbol} {row column : Nat}
    (inside : symbol.shape.contains row column = true) :
    (symbol.atomAt row column).flatIndex = symbol.shape.flatIndex row column := by
  unfold atomAt
  split
  · rename_i scalar
    have shape : symbol.shape = .scalar := eq_of_beq scalar
    have bounds := Shape.contains_iff.mp inside
    simp only [shape, Shape.rows, Shape.columns] at bounds
    simp only [Atom.flatIndex, Shape.flatIndex, shape, Shape.columns]
    omega
  · rfl

namespace Tensor

variable {κ : Type} [Scalar κ]

theorem mem_atoms {tensor : Tensor κ} {atom : Atom} :
    atom ∈ tensor.atoms ↔ ∃ entry ∈ tensor.entries, atom ∈ entry.occurrences := by
  simp [atoms, Grouping.mem_distinct, Expr.mem_atoms]

theorem mem_symbols {tensor : Tensor κ} {symbol : Symbol} :
    symbol ∈ tensor.symbols ↔ ∃ atom ∈ tensor.atoms, atom.symbol = symbol := by
  simp [symbols, Grouping.mem_distinct]

theorem mem_atoms_ofExpr {expr : Expr κ} {atom : Atom} :
    atom ∈ (ofExpr expr).atoms ↔ atom ∈ expr.occurrences := by
  simp [mem_atoms, ofExpr]

theorem entryAt_eq_ok {tensor : Tensor κ} {index : Nat} {expr : Expr κ} :
    tensor.entryAt index = .ok expr ↔
      index < tensor.shape.size ∧ tensor.entries[index]? = some expr := by
  simp only [entryAt, entry]
  rcases Nat.lt_or_ge index tensor.shape.size with bound | outside
  · obtain ⟨inside, position⟩ := Shape.place_inside bound
    rw [inside, position]
    cases found : tensor.entries[index]? <;> simp [bound]
  · rw [Shape.place_outside outside]
    simp [Nat.not_lt.mpr outside]

@[simp] theorem shape_ofSymbol (symbol : Symbol) :
    (ofSymbol symbol : Tensor κ).shape = symbol.shape := rfl

theorem getElem?_ofSymbol {symbol : Symbol} {index : Nat} (bound : index < symbol.shape.size) :
    (ofSymbol symbol : Tensor κ).entries[index]? =
      some (.atom (symbol.atomAt (symbol.shape.place index).1 (symbol.shape.place index).2)) := by
  simp [ofSymbol, Symbol.atoms, Shape.places_eq, List.getElem?_range bound]

theorem entryAt_ofSymbol {symbol : Symbol} {index : Nat} (bound : index < symbol.shape.size) :
    ∃ atom : Atom, (ofSymbol symbol : Tensor κ).entryAt index = .ok (.atom atom) ∧
      atom.symbol = symbol ∧ atom.flatIndex = index := by
  obtain ⟨inside, position⟩ := Shape.place_inside bound
  refine ⟨_, entryAt_eq_ok.mpr ⟨bound, getElem?_ofSymbol bound⟩, by simp, ?_⟩
  rw [Symbol.flatIndex_atomAt inside, position]

theorem mem_atoms_ofSymbol {symbol : Symbol} {atom : Atom}
    (member : atom ∈ (ofSymbol symbol : Tensor κ).atoms) : atom.symbol = symbol ∧ atom.Within := by
  obtain ⟨entry, among, reads⟩ := mem_atoms.mp member
  obtain ⟨index, bound, rfl⟩ := List.getElem_of_mem among
  have size : index < symbol.shape.size := by
    simpa [ofSymbol, Symbol.atoms] using bound
  obtain ⟨inside, position⟩ := Shape.place_inside size
  have found := getElem?_ofSymbol (κ := κ) size
  rw [List.getElem?_eq_getElem bound, Option.some.injEq] at found
  rw [found, Expr.occurrences, List.mem_singleton] at reads
  subst reads
  refine ⟨by simp, ?_⟩
  rw [Atom.Within, Symbol.flatIndex_atomAt inside, position, Symbol.symbol_atomAt]
  exact size

theorem length_ofSymbol (symbol : Symbol) :
    (ofSymbol symbol : Tensor κ).entries.length = symbol.shape.size := by
  simp [ofSymbol, Symbol.atoms]

theorem aliasTarget?_eq_some {tensor : Tensor κ} {target : Symbol}
    (found : tensor.aliasTarget? = some target) :
    tensor = ofSymbol target ∧ target ∈ tensor.symbols := by
  simp only [aliasTarget?, Option.bind_eq_bind, Option.bind_eq_some_iff] at found
  obtain ⟨first, head, atom, leaf, same⟩ := found
  split at same
  · rename_i equal
    cases same
    refine ⟨equal, mem_symbols.mpr ⟨atom, mem_atoms.mpr ⟨first, List.mem_of_mem_head? head, ?_⟩, rfl⟩⟩
    cases first <;> simp_all [Expr.asAtom?, Expr.occurrences]
  · cases same

@[simp] theorem shape_substitute (replacement : Atom → Option (Expr κ)) (tensor : Tensor κ) :
    (tensor.substitute replacement).shape = tensor.shape := rfl

@[simp] theorem length_substitute (replacement : Atom → Option (Expr κ)) (tensor : Tensor κ) :
    (tensor.substitute replacement).entries.length = tensor.entries.length := by
  simp [substitute, map]

theorem entryAt_substitute {replacement : Atom → Option (Expr κ)} {tensor : Tensor κ} {index : Nat}
    {expr : Expr κ} :
    (tensor.substitute replacement).entryAt index = .ok expr ↔
      ∃ entry, tensor.entryAt index = .ok entry ∧ entry.substitute replacement = expr := by
  simp only [entryAt_eq_ok, substitute, map, List.getElem?_map, Option.map_eq_some_iff]
  constructor
  · rintro ⟨bound, entry, found, rfl⟩
    exact ⟨entry, ⟨bound, found⟩, rfl⟩
  · rintro ⟨entry, ⟨bound, found⟩, rfl⟩
    exact ⟨bound, entry, found, rfl⟩

theorem mem_atoms_substitute {replacement : Atom → Option (Expr κ)} {tensor : Tensor κ} {atom : Atom}
    (member : atom ∈ (tensor.substitute replacement).atoms) :
    ∃ replaced ∈ tensor.atoms, atom ∈ (Expr.replacementOf replacement replaced).occurrences := by
  obtain ⟨entry, among, reads⟩ := mem_atoms.mp member
  obtain ⟨original, within, rfl⟩ := List.mem_map.mp among
  obtain ⟨replaced, occurs, found⟩ := Expr.mem_occurrences_substitute reads
  exact ⟨replaced, mem_atoms.mpr ⟨original, within, occurs⟩, found⟩

theorem substitute_congr {first second : Atom → Option (Expr κ)} (tensor : Tensor κ)
    (agree : ∀ atom ∈ tensor.atoms, first atom = second atom) :
    tensor.substitute first = tensor.substitute second := by
  unfold substitute map
  congr 1
  apply List.map_congr_left
  intro entry member
  apply Expr.substitute_congr
  intro atom occurs
  exact agree atom (mem_atoms.mpr ⟨entry, member, occurs⟩)

end Tensor

/-- An atom at a place of a symbol whose number is below the limit. -/
structure Atom.Regular (limit : Nat) (atom : Atom) : Prop where
  within : atom.Within
  issued : atom.symbol.number < limit

def Expr.Regular {κ : Type} [Scalar κ] (limit : Nat) (expr : Expr κ) : Prop :=
  ∀ atom ∈ expr.occurrences, atom.Regular limit

namespace Tensor

variable {κ : Type} [Scalar κ] {limit : Nat}

/-- An entry for every place, and regular atoms only. -/
structure Regular (limit : Nat) (tensor : Tensor κ) : Prop where
  length_eq : tensor.entries.length = tensor.shape.size
  entries : ∀ entry ∈ tensor.entries, entry.Regular limit

theorem Regular.atoms {tensor : Tensor κ} (regular : tensor.Regular limit) {atom : Atom}
    (member : atom ∈ tensor.atoms) : atom.Regular limit := by
  obtain ⟨entry, among, reads⟩ := mem_atoms.mp member
  exact regular.entries entry among atom reads

theorem Regular.mono {tensor : Tensor κ} (regular : tensor.Regular limit) {more : Nat}
    (le : limit ≤ more) : tensor.Regular more where
  length_eq := regular.length_eq
  entries := by
    intro entry among atom reads
    obtain ⟨within, issued⟩ := regular.entries entry among atom reads
    exact ⟨within, issued.trans_le le⟩

theorem regular_ofSymbol {symbol : Symbol} (issued : symbol.number < limit) :
    (ofSymbol symbol : Tensor κ).Regular limit where
  length_eq := length_ofSymbol symbol
  entries := by
    intro entry among atom reads
    obtain ⟨same, within⟩ := mem_atoms_ofSymbol (mem_atoms.mpr ⟨entry, among, reads⟩)
    exact ⟨within, by rwa [same]⟩

theorem Regular.substitute {tensor : Tensor κ} (regular : tensor.Regular limit)
    {replacement : Atom → Option (Expr κ)}
    (replaced : ∀ atom ∈ tensor.atoms, (Expr.replacementOf replacement atom).Regular limit) :
    (tensor.substitute replacement).Regular limit where
  length_eq := by rw [length_substitute, shape_substitute, regular.length_eq]
  entries := by
    intro entry among atom reads
    obtain ⟨original, member, found⟩ := mem_atoms_substitute (mem_atoms.mpr ⟨entry, among, reads⟩)
    exact replaced original member atom found

/-- An entry for every place, and only symbols whose numbers are below the limit. -/
structure Issued (limit : Nat) (tensor : Tensor κ) : Prop where
  length_eq : tensor.entries.length = tensor.shape.size
  numbers : ∀ atom ∈ tensor.atoms, atom.symbol.number < limit

def Placed (tensor : Tensor κ) : Prop := ∀ atom ∈ tensor.atoms, atom.Within

theorem Regular.toIssued {tensor : Tensor κ} (regular : tensor.Regular limit) :
    tensor.Issued limit :=
  ⟨regular.length_eq, fun _ member => (regular.atoms member).issued⟩

theorem Regular.placed {tensor : Tensor κ} (regular : tensor.Regular limit) : tensor.Placed :=
  fun _ member => (regular.atoms member).within

theorem Issued.regular {tensor : Tensor κ} (issued : tensor.Issued limit) (placed : tensor.Placed) :
    tensor.Regular limit where
  length_eq := issued.length_eq
  entries := by
    intro entry among atom occurs
    have member := mem_atoms.mpr ⟨entry, among, occurs⟩
    exact ⟨placed atom member, issued.numbers atom member⟩

theorem Issued.mono {tensor : Tensor κ} (issued : tensor.Issued limit) {more : Nat}
    (le : limit ≤ more) : tensor.Issued more :=
  ⟨issued.length_eq, fun atom member => (issued.numbers atom member).trans_le le⟩

theorem issued_ofSymbol {symbol : Symbol} (issued : symbol.number < limit) :
    (ofSymbol symbol : Tensor κ).Issued limit :=
  (regular_ofSymbol issued).toIssued

theorem placed_ofSymbol (symbol : Symbol) : (ofSymbol symbol : Tensor κ).Placed :=
  fun _ member => (mem_atoms_ofSymbol member).2

theorem Issued.substitute {tensor : Tensor κ} (issued : tensor.Issued limit)
    {replacement : Atom → Option (Expr κ)}
    (replaced : ∀ atom ∈ tensor.atoms, ∀ other ∈ (Expr.replacementOf replacement atom).occurrences,
      other.symbol.number < limit) : (tensor.substitute replacement).Issued limit where
  length_eq := by rw [length_substitute, shape_substitute, issued.length_eq]
  numbers := by
    intro atom member
    obtain ⟨original, among, found⟩ := mem_atoms_substitute member
    exact replaced original among atom found

theorem Issued.eq_ofExpr {tensor : Tensor κ} (issued : tensor.Issued limit) {expr : Expr κ}
    (whole : tensor.toExpr = .ok expr) : tensor = .ofExpr expr := by
  obtain ⟨shape, entries⟩ := tensor
  unfold toExpr at whole
  simp only at whole
  split at whole
  · rename_i first rest
    cases whole
    have length := issued.length_eq
    have empty : rest = [] := by
      apply List.length_eq_zero_iff.mp
      simp [Shape.size, Shape.rows, Shape.columns] at length
      simp [length]
    rw [empty]
    rfl
  · cases whole

end Tensor

theorem bind_eq_ok {ε α β : Type} {first : Except ε α} {next : α → Except ε β} {result : β} :
    first >>= next = .ok result ↔ ∃ value, first = .ok value ∧ next value = .ok result := by
  cases first <;> simp [bind, Except.bind]

namespace Expr

variable {κ : Type} [Scalar κ] [Exact κ]

theorem isZero_eq_true {expr : Expr κ} :
    expr.isZero = true ↔ ∃ number, expr = num number ∧ Exact.real number = 0 := by
  simp only [isZero, Option.any_eq_true, asNumber?_eq_some, isZero_iff]

theorem isZero_product {operands : List (Expr κ)} {operand : Expr κ} (member : operand ∈ operands)
    (vanishes : operand.isZero = true) : (product operands).isZero = true := by
  obtain ⟨number, rfl, zero⟩ := isZero_eq_true.mp vanishes
  have among : number ∈ numbersIn (factorsOf operands) := by
    rw [numbersIn, List.mem_filterMap, factorsOf_eq]
    exact ⟨num number, List.mem_flatMap.mpr ⟨_, member, List.mem_singleton_self _⟩, rfl⟩
  have coefficient :
      Scalar.isZero ((numbersIn (factorsOf operands)).foldl (· * ·) 1) = true := by
    rw [isZero_iff, real_foldl_mul]
    exact mul_eq_zero_of_right _ (List.prod_eq_zero (zero ▸ List.mem_map_of_mem among))
  rw [product, fuelFor, productWith]
  simp only [coefficient, ↓reduceIte]
  exact isZero_zero

theorem isZero_times_left {left right : Expr κ} (vanishes : left.isZero = true) :
    (left * right).isZero = true :=
  isZero_product List.mem_cons_self vanishes

theorem isZero_times_right {left right : Expr κ} (vanishes : right.isZero = true) :
    (left * right).isZero = true :=
  isZero_product (List.mem_cons_of_mem _ List.mem_cons_self) vanishes

theorem sum_eq_zero {terms : List (Expr κ)} (vanish : ∀ term ∈ terms, term.isZero = true) :
    sum terms = zero := by
  have leaves : addendsOf terms = terms := by
    rw [addendsOf_eq]
    induction terms with
    | nil => rfl
    | cons head tail ih =>
        rw [List.forall_mem_cons] at vanish
        obtain ⟨number, rfl, _⟩ := isZero_eq_true.mp vanish.1
        rw [List.flatMap_cons, ih vanish.2]
        rfl
  have symbolic : symbolicIn terms = [] := by
    rw [symbolicIn, List.filter_eq_nil_iff]
    intro term member
    obtain ⟨number, rfl, _⟩ := isZero_eq_true.mp (vanish term member)
    simp [asNumber?]
  have constant : Scalar.isZero ((numbersIn terms).foldl (· + ·) 0) = true := by
    rw [isZero_iff, real_foldl_add, Exact.real_zero, zero_add]
    apply List.sum_eq_zero
    intro value member
    obtain ⟨number, among, rfl⟩ := List.mem_map.mp member
    obtain ⟨term, present, numeric⟩ := List.mem_filterMap.mp among
    obtain ⟨other, rfl, zero⟩ := isZero_eq_true.mp (vanish term present)
    cases numeric
    exact zero
  rw [sum, fuelFor, sumWith]
  simp only [leaves, symbolic, constant, ↓reduceIte]
  rfl

theorem isZero_sum {terms : List (Expr κ)} (vanish : ∀ term ∈ terms, term.isZero = true) :
    (sum terms).isZero = true := by
  rw [sum_eq_zero vanish]
  exact isZero_zero

theorem takes_sum_range {assignment : Assignment} {count : Nat} {term : Nat → Expr κ}
    {value : Fin count → ℝ} (takes : ∀ index : Fin count, (term index).Takes assignment (value index)) :
    (sum ((List.range count).map term)).Takes assignment (∑ index, value index) := by
  apply takes_sum
  induction count with
  | zero => simp
  | succ count ih =>
      rw [List.range_succ, List.map_append, Fin.sum_univ_castSucc]
      exact (ih fun index => takes index.castSucc).append
        (sumsTo_singleton.mpr (takes (Fin.last count)))

end Expr

namespace Tensor

variable {κ : Type} [Scalar κ]

/-- The entry at a position in row-major order, and zero outside. -/
def component (tensor : Tensor κ) (index : Nat) : Expr κ := (tensor.entries[index]?).getD .zero

/-- The entry at a row and column, and zero outside. -/
def part (tensor : Tensor κ) (row column : Nat) : Expr κ := tensor.grid.entry row column

theorem part_eq (tensor : Tensor κ) (row column : Nat) :
    tensor.part row column = tensor.component (tensor.shape.flatIndex row column) := by
  simp [part, component, grid, Grid.entry]

theorem component_eq_of_entryAt {tensor : Tensor κ} {index : Nat} {expr : Expr κ}
    (found : tensor.entryAt index = .ok expr) : tensor.component index = expr := by
  rw [component, (entryAt_eq_ok.mp found).2, Option.getD_some]

@[simp] theorem shape_build (rows columns : Nat) (entryOf : Nat → Nat → Expr κ) :
    (build rows columns entryOf).shape = Shape.ofDimensions rows columns := rfl

theorem entries_build (rows columns : Nat) (entryOf : Nat → Nat → Expr κ) :
    (build rows columns entryOf).entries =
      (Shape.ofDimensions rows columns).places.map fun place => entryOf place.1 place.2 := by
  simp [build, Shape.places, List.map_flatMap, Function.comp_def]

@[simp] theorem length_build (rows columns : Nat) (entryOf : Nat → Nat → Expr κ) :
    (build rows columns entryOf).entries.length = rows * columns := by
  simp [entries_build]

theorem part_build {rows columns row column : Nat} (entryOf : Nat → Nat → Expr κ)
    (rowBound : row < rows) (columnBound : column < columns) :
    (build rows columns entryOf).part row column = entryOf row column := by
  have index : row * columns + column < rows * columns :=
    calc row * columns + column < row * columns + columns := by omega
      _ = (row + 1) * columns := by ring
      _ ≤ rows * columns := Nat.mul_le_mul_right columns rowBound
  have width : max columns 1 = columns := Nat.max_eq_left (by omega)
  rw [part_eq, component, entries_build, Shape.places_eq, shape_build]
  simp only [Shape.flatIndex, Shape.columns_ofDimensions, Shape.size_ofDimensions, List.map_map,
    List.getElem?_map, List.getElem?_range index, Option.map_some, Option.getD_some,
    Function.comp_apply, Shape.place, width]
  rw [Nat.mul_comm, Nat.mul_add_div (by omega), Nat.div_eq_of_lt columnBound, Nat.mul_add_mod,
    Nat.mod_eq_of_lt columnBound, Nat.add_zero]

theorem part_multiply {left right : Tensor κ} {row column : Nat} (rowBound : row < left.rows)
    (columnBound : column < right.columns) :
    (left.multiply right).part row column =
      Expr.sum ((List.range left.columns).map fun inner =>
        left.part row inner * right.part inner column) :=
  part_build _ rowBound columnBound

theorem component_sumEntries {left right : Tensor κ} {index : Nat}
    (leftBound : index < left.entries.length) (rightBound : index < right.entries.length) :
    (left.sumEntries right).component index = left.component index + right.component index := by
  simp [sumEntries, component, List.getElem?_zipWith, List.getElem?_eq_getElem leftBound,
    List.getElem?_eq_getElem rightBound]

theorem length_sub {left right difference : Tensor κ} (subtracted : left.sub right = .ok difference) :
    difference.entries.length = min left.entries.length right.entries.length := by
  unfold sub zipWith at subtracted
  split at subtracted
  · cases subtracted
    exact List.length_zipWith
  · cases subtracted

theorem component_sub {left right difference : Tensor κ} {index : Nat}
    (subtracted : left.sub right = .ok difference) (leftBound : index < left.entries.length)
    (rightBound : index < right.entries.length) :
    difference.component index = left.component index - right.component index := by
  unfold sub zipWith at subtracted
  split at subtracted
  · cases subtracted
    simp [component, List.getElem?_zipWith, List.getElem?_eq_getElem leftBound,
      List.getElem?_eq_getElem rightBound]
  · cases subtracted

/-- What holds of zero, and of sums and products of its instances, holds of the entries of a
product. -/
theorem forall_matmul {property : Expr κ → Prop} {left right product : Tensor κ}
    (zero : property .zero)
    (times : ∀ {first second : Expr κ}, property first → property second → property (first * second))
    (sum : ∀ {terms : List (Expr κ)}, (∀ term ∈ terms, property term) → property (Expr.sum terms))
    (lhs : ∀ entry ∈ left.entries, property entry) (rhs : ∀ entry ∈ right.entries, property entry)
    (multiplied : left.matmul right = .ok product) : ∀ entry ∈ product.entries, property entry := by
  have part (tensor : Tensor κ) (each : ∀ entry ∈ tensor.entries, property entry)
      (row column : Nat) : property (tensor.part row column) := by
    rw [part_eq, component]
    cases found : tensor.entries[tensor.shape.flatIndex row column]? with
    | none => exact zero
    | some entry => exact each entry (List.mem_of_getElem? found)
  unfold matmul at multiplied
  split at multiplied
  · cases multiplied
    exact List.forall_mem_map.mpr fun entry member => times (rhs entry member) (part left lhs 0 0)
  split at multiplied
  · cases multiplied
    exact List.forall_mem_map.mpr fun entry member => times (lhs entry member) (part right rhs 0 0)
  split at multiplied
  · cases multiplied
  · cases multiplied
    rw [multiply, entries_build]
    refine List.forall_mem_map.mpr fun place _ => sum (List.forall_mem_map.mpr fun inner _ => ?_)
    exact times (part left lhs _ inner) (part right rhs inner _)

end Tensor

end Mechanism
