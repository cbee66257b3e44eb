import Mechanism.Proofs.Loop.Progress
import Mechanism.Proofs.Tensor.Determinant

/-!
Values in a graph that has registered a loop: what its symbols yield, the derivatives of a constraint
by coordinates, and columns of their rates.
-/

namespace Mechanism

open Matrix

variable {κ : Type} [Scalar κ] [Exact κ] {environment : Environment} {m n : Nat}

namespace Graph

variable {graph : Graph κ} {symbol : Symbol} {value : Tensor κ}

/-- The symbol is defined by an equation whose entries have the values of the matrix. -/
def Yields (graph : Graph κ) (environment : Environment) (symbol : Symbol)
    (matrix : Matrix (Fin m) (Fin n) ℝ) : Prop :=
  ∃ node, graph.nodeOf? symbol = some node ∧ ∀ (row : Fin m) (column : Fin n),
    node.value.MeansAt environment (row * n + column) (matrix row column)

def Settles (graph : Graph κ) (environment : Environment) (symbol : Symbol) : Prop :=
  ∀ node, graph.nodeOf? symbol = some node → ∀ index number,
    node.value.MeansAt environment index number → environment symbol index = some number

theorem Carries.yields (carries : graph.Carries symbol value)
    (respects : ∀ read, graph.Respects environment read) {matrix : Matrix (Fin m) (Fin n) ℝ}
    (holds : value.Holds environment.read matrix) : graph.Yields environment symbol matrix := by
  obtain ⟨node, found, means⟩ := carries
  refine ⟨node, found, fun row column => means environment (fun read _ => respects read) _ _ ?_⟩
  refine ⟨_, Tensor.entryAt_eq_ok.mpr ⟨?_, holds.getElem row column⟩,
    Expr.means_iff_takes.mpr (holds.takes row column)⟩
  rw [holds.shape_eq, Shape.size_ofDimensions]
  exact Tensor.flatIndex_lt row column

theorem Yields.holds {matrix : Matrix (Fin m) (Fin n) ℝ}
    (yields : graph.Yields environment symbol matrix) (settles : graph.Settles environment symbol)
    (shape : symbol.shape = Shape.ofDimensions m n) :
    (Tensor.ofSymbol symbol : Tensor κ).Holds environment.read matrix := by
  obtain ⟨node, found, means⟩ := yields
  exact Tensor.holds_ofSymbol shape fun row column => settles node found _ _ (means row column)

end Graph

namespace Coordinate

noncomputable def velocityIn (environment : Environment) (coordinate : Coordinate) : ℝ :=
  (environment coordinate.velocity 0).getD 0

noncomputable def accelerationIn (environment : Environment) (coordinate : Coordinate) : ℝ :=
  (environment coordinate.acceleration 0).getD 0

noncomputable def velocitiesIn (environment : Environment) (coordinates : List Coordinate) :
    Fin coordinates.length → ℝ :=
  fun index => (coordinates.get index).velocityIn environment

noncomputable def accelerationsIn (environment : Environment) (coordinates : List Coordinate) :
    Fin coordinates.length → ℝ :=
  fun index => (coordinates.get index).accelerationIn environment

noncomputable def course (environment : Environment) (coordinates : List Coordinate) (time : ℝ) :
    Assignment :=
  Expr.moved environment.read (fun index => (coordinates.get index).atom)
    (time • velocitiesIn environment coordinates)

theorem course_atom {coordinates : List Coordinate}
    (apart : (coordinates.map atom).Nodup) (environment : Environment) (time : ℝ)
    {coordinate : Coordinate} (member : coordinate ∈ coordinates) :
    course environment coordinates time coordinate.atom =
      (environment.read coordinate.atom).map (· + time * coordinate.velocityIn environment) := by
  obtain ⟨place, bound, rfl⟩ := List.mem_iff_getElem.mp member
  have injective : Function.Injective fun index : Fin coordinates.length =>
      coordinates[index].atom := by
    intro one other same
    have twice := List.inj_on_of_nodup_map apart (List.getElem_mem one.isLt)
      (List.getElem_mem other.isLt) same
    exact Fin.ext ((List.Nodup.of_map _ apart).getElem_inj_iff.mp twice)
  exact Expr.moved_of_injective injective ⟨place, bound⟩

end Coordinate

namespace Tensor

variable {tensor jacobian : Tensor κ} {coordinates : List Coordinate}

theorem HasPartials.apply_eq [ExactDivision κ] {matrix : Matrix (Fin m) (Fin coordinates.length) ℝ}
    (partials : tensor.HasPartials environment coordinates matrix)
    (smooth : tensor.SmoothAt 1 environment.read) (row : Fin m) (column : Fin coordinates.length) :
    matrix row column =
      ((tensor.component row).derivative (coordinates.get column).atom).valueIn
        environment.read := by
  obtain ⟨point, here, slopes⟩ := partials column
  exact (slopes row).unique ((smooth.component row).partial here).2

theorem HasPartials.holds [ExactDivision κ] {matrix : Matrix (Fin m) (Fin coordinates.length) ℝ}
    (partials : tensor.HasPartials environment coordinates matrix)
    (smooth : tensor.SmoothAt 1 environment.read) (height : tensor.entries.length = m)
    (made : tensor.jacobian (coordinates.map Coordinate.atom) = .ok jacobian) :
    jacobian.Holds environment.read matrix := by
  rw [Loop.map_eq_ofFn] at made
  refine holds_jacobian made height fun row column => ?_
  obtain ⟨point, here, _⟩ := partials column
  rw [partials.apply_eq smooth]
  exact ((smooth.component row).partial here).1.takes

end Tensor

namespace Loop

variable {graph : Graph κ} {artifacts : Artifacts κ} {geometry : Geometry κ}

theorem eq_some_getD {number? : Option ℝ} (known : number?.isSome) :
    number? = some (number?.getD 0) := by
  obtain ⟨number, rfl⟩ := Option.isSome_iff_exists.mp known
  rfl

theorem holds_ofRates {coordinates : List Coordinate} (rate : Coordinate → Symbol)
    (known : ∀ coordinate ∈ coordinates, (environment (rate coordinate) 0).isSome) :
    (Tensor.ofColumn (coordinates.map fun coordinate =>
      (.atom (.whole (rate coordinate)) : Expr κ))).Holds environment.read
        (replicateCol (Fin 1) fun index : Fin coordinates.length =>
          (environment (rate (coordinates.get index)) 0).getD 0) := by
  rw [map_eq_ofFn]
  exact Tensor.holds_ofFn fun index => (Expr.takes_atom _ _).mpr
    (eq_some_getD (known _ (List.getElem_mem index.isLt)))

theorem holds_ofExpr {entry : Expr κ} {value : ℝ} (takes : entry.Takes environment.read value) :
    (Tensor.ofExpr entry).Holds environment.read !![value] := by
  refine Tensor.holds_of_getElem (m := 1) (n := 1) rfl fun row column => ⟨entry, ?_, ?_⟩
  · rw [Fin.fin_one_eq_zero row, Fin.fin_one_eq_zero column]
    rfl
  · rw [Fin.fin_one_eq_zero row, Fin.fin_one_eq_zero column]
    exact takes

theorem yields_of_column {column : Tensor κ} {values : Fin m → ℝ} {symbols : List Symbol}
    (holds : column.Holds environment.read (replicateCol (Fin 1) values))
    (respects : ∀ read, graph.Respects environment read)
    (each : ∀ index symbol, symbols[index]? = some symbol → ∃ entry,
      column.entryAt index = .ok entry ∧ graph.Carries symbol (.ofExpr entry))
    {symbol : Symbol} (row : Fin m) (here : symbols[row.val]? = some symbol) :
    graph.Yields environment symbol !![values row] := by
  obtain ⟨entry, found, carries⟩ := each row symbol here
  have takes := holds.component row
  rw [Tensor.component_eq_of_entryAt found] at takes
  exact carries.yields respects (holds_ofExpr takes)

theorem known_of_yields {symbol : Symbol} {value : ℝ}
    (yields : graph.Yields environment symbol !![value]) (settles : graph.Settles environment symbol) :
    environment symbol 0 = some value := by
  obtain ⟨node, found, means⟩ := yields
  simpa using settles node found _ _ (means 0 0)

theorem balance {Ju : Matrix (Fin m) (Fin n) ℝ} {Jv : Matrix (Fin m) (Fin m) ℝ}
    (regular : Jv.det ≠ 0) (driven : Fin n → ℝ) (rest : Fin m → ℝ) :
    Ju *ᵥ driven + Jv *ᵥ (-(Jv⁻¹ * Ju) *ᵥ driven + -(Jv⁻¹ *ᵥ rest)) + rest = 0 := by
  have inverse : Jv * Jv⁻¹ = 1 := mul_nonsing_inv Jv (isUnit_iff_ne_zero.mpr regular)
  have follow : Jv *ᵥ (-(Jv⁻¹ * Ju) *ᵥ driven) = -(Ju *ᵥ driven) := by
    rw [mulVec_mulVec, Matrix.mul_neg, ← Matrix.mul_assoc, inverse, Matrix.one_mul, neg_mulVec]
  have compensate : Jv *ᵥ (-(Jv⁻¹ *ᵥ rest)) = -rest := by
    rw [mulVec_neg, mulVec_mulVec, inverse, one_mulVec]
  rw [mulVec_add, follow, compensate]
  abel

theorem eq_of_balanced {Ju : Matrix (Fin m) (Fin n) ℝ} {Jv : Matrix (Fin m) (Fin m) ℝ}
    (regular : Jv.det ≠ 0) {driven : Fin n → ℝ} {followed : Fin m → ℝ}
    (balanced : Ju *ᵥ driven + Jv *ᵥ followed = 0) : followed = -(Jv⁻¹ * Ju) *ᵥ driven := by
  have inverse : Jv⁻¹ * Jv = 1 := nonsing_inv_mul Jv (isUnit_iff_ne_zero.mpr regular)
  calc followed = (Jv⁻¹ * Jv) *ᵥ followed := by rw [inverse, one_mulVec]
    _ = Jv⁻¹ *ᵥ (Jv *ᵥ followed) := (mulVec_mulVec _ _ _).symm
    _ = Jv⁻¹ *ᵥ -(Ju *ᵥ driven) := by rw [eq_neg_of_add_eq_zero_right balanced]
    _ = -(Jv⁻¹ * Ju) *ᵥ driven := by rw [mulVec_neg, mulVec_mulVec, neg_mulVec]

end Loop

end Mechanism
