import Mechanism.Loop.Descriptor
import Mechanism.Loop.Linearization
import Mechanism.Proofs.Expr.Smoothness
import Mechanism.Proofs.Loop.Registration

/-!
The equations of a registered loop: which values its symbols carry in the graph, and that these are
the derivatives of the constraint. The Jacobians hold its partial derivatives, and the drift is what
it accelerates by while the coordinates move at steady velocities.
-/

namespace Mechanism

section Derivatives

open Filter Topology Matrix

/-- Around the place the function has a derivative, which changes there at the given rate. -/
def HasSecondDerivAt (f : ℝ → ℝ) (second place : ℝ) : Prop :=
  ∃ slope : ℝ → ℝ, (∀ᶠ t in 𝓝 place, HasDerivAt f (slope t) t) ∧ HasDerivAt slope second place

theorem HasSecondDerivAt.unique {f : ℝ → ℝ} {first second place : ℝ}
    (one : HasSecondDerivAt f first place) (two : HasSecondDerivAt f second place) :
    first = second := by
  obtain ⟨slope, slopes, change⟩ := one
  obtain ⟨other, others, changes⟩ := two
  refine change.unique (changes.congr_of_eventuallyEq ?_)
  filter_upwards [slopes, others] with t here there
  exact here.unique there

namespace Tensor

variable {κ : Type} [Scalar κ]

variable [Exact κ]

/-- Every entry is smooth at the values of the atoms. -/
def SmoothAt (order : Nat) (assignment : Assignment) (tensor : Tensor κ) : Prop :=
  ∀ entry ∈ tensor.entries, entry.SmoothAt order assignment

/-- The coordinates have positions, at which the entries have these derivatives by them. -/
def HasPartials {m : Nat} (tensor : Tensor κ) (environment : Environment)
    (coordinates : List Coordinate) (matrix : Matrix (Fin m) (Fin coordinates.length) ℝ) : Prop :=
  ∀ column : Fin coordinates.length, ∃ point,
    environment.read (coordinates.get column).atom = some point ∧ ∀ row : Fin m,
      HasDerivAt (fun t => (tensor.component row).valueIn
        (Expr.vary environment.read (coordinates.get column).atom t)) (matrix row column) point

variable {tensor : Tensor κ} {assignment : Assignment} {m n : Nat} {atoms : Fin n → Atom}
  {velocities : Fin n → Expr κ} {symbols : Fin n → Atom} {speeds : Fin n → ℝ}

theorem SmoothAt.component {order : Nat} (smooth : tensor.SmoothAt order assignment) (row : Nat) :
    (tensor.component row).SmoothAt order assignment := by
  unfold Tensor.component
  cases found : tensor.entries[row]? with
  | none => exact .num 0
  | some entry => exact smooth entry (List.mem_of_getElem? found)

variable [ExactDivision κ]

/-- The Jacobian times velocities gives the rates at which the entries change while the atoms move
at these velocities. -/
theorem SmoothAt.directional (smooth : tensor.SmoothAt 1 assignment)
    (known : ∀ index, (assignment (atoms index)).isSome)
    (moving : ∀ index, (velocities index).Takes assignment (speeds index))
    (height : tensor.entries.length = m) {jacobian rate : Tensor κ}
    (made : tensor.jacobian (List.ofFn atoms) = .ok jacobian)
    (multiplied : jacobian.matmul (ofColumn (List.ofFn velocities)) = .ok rate) :
    ∃ slopes : Fin m → ℝ, rate.Holds assignment (replicateCol (Fin 1) slopes) ∧
      ∀ row : Fin m, HasDerivAt (fun t : ℝ => (tensor.component row).valueIn
        (Expr.moved assignment atoms (t • speeds))) (slopes row) 0 := by
  have slopes : jacobian.Holds assignment (.of fun (row : Fin m) (column : Fin n) =>
      ((tensor.component row).derivative (atoms column)).valueIn assignment) := by
    refine holds_jacobian made height fun row column => ?_
    obtain ⟨value, here⟩ := Option.isSome_iff_exists.mp (known column)
    exact ((smooth.component row).partial here).1.takes
  have product := slopes.matmul (holds_ofFn moving) multiplied
  refine ⟨fun row => ∑ index, speeds index *
    ((tensor.component row).derivative (atoms index)).valueIn assignment, ?_,
    fun row => (smooth.component row).hasDerivAt_moved known⟩
  convert product using 1
  ext row column
  simp only [replicateCol_apply, mul_apply, of_apply, mul_comm]

omit [ExactDivision κ] in
theorem Holds.component {values : Fin m → ℝ}
    (holds : tensor.Holds assignment (replicateCol (Fin 1) values)) (row : Fin m) :
    (tensor.component row).Takes assignment (values row) := by
  have takes := holds.takes row 0
  rwa [part_eq, holds.shape_eq, Shape.flatIndex, Shape.columns_ofDimensions, Fin.val_zero,
    Nat.mul_one, Nat.add_zero] at takes

omit [ExactDivision κ] in
theorem hasDerivAt_moved_line {expr : Expr κ} {slope t : ℝ}
    (slopes : HasDerivAt (fun step : ℝ => expr.valueIn
      (Expr.moved (Expr.moved assignment atoms (t • speeds)) atoms (step • speeds))) slope 0) :
    HasDerivAt (fun time : ℝ => expr.valueIn (Expr.moved assignment atoms (time • speeds)))
      slope t := by
  rw [← sub_self t] at slopes
  have shifted := slopes.comp_sub_const t t
  simpa only [Expr.moved_moved, ← add_smul, add_sub_cancel] using shifted

theorem SmoothAt.directional_twice (smooth : tensor.SmoothAt 2 assignment)
    (known : ∀ index, (assignment (atoms index)).isSome)
    (moving : ∀ index, assignment (symbols index) = some (speeds index))
    (apart : ∀ index other, atoms other ≠ symbols index) (height : tensor.entries.length = m)
    {jacobian rate rateJacobian drift : Tensor κ}
    (made : tensor.jacobian (List.ofFn atoms) = .ok jacobian)
    (multiplied : jacobian.matmul (ofColumn (List.ofFn fun index => .atom (symbols index))) =
      .ok rate)
    (again : rate.jacobian (List.ofFn atoms) = .ok rateJacobian)
    (final : rateJacobian.matmul (ofColumn (List.ofFn fun index => .atom (symbols index))) =
      .ok drift) :
    ∃ seconds : Fin m → ℝ, drift.Holds assignment (replicateCol (Fin 1) seconds) ∧
      ∀ row : Fin m, HasSecondDerivAt (fun t : ℝ => (tensor.component row).valueIn
        (Expr.moved assignment atoms (t • speeds))) (seconds row) 0 := by
  have line : Tendsto (fun t : ℝ => t • speeds) (𝓝 0) (𝓝 0) := by
    have continuous : Continuous fun t : ℝ => t • speeds := continuous_id.smul continuous_const
    simpa using continuous.tendsto 0
  -- the velocities stay as they are while the positions move
  have steady (t : ℝ) (index : Fin n) : (Expr.atom (symbols index) : Expr κ).Takes
      (Expr.moved assignment atoms (t • speeds)) (speeds index) :=
    (Expr.takes_atom _ _).mpr ((Expr.moved_eq_self (apart index)).trans (moving index))
  have lasts : ∀ᶠ t in 𝓝 (0 : ℝ),
      tensor.SmoothAt 2 (Expr.moved assignment atoms (t • speeds)) :=
    (eventually_all_finite (List.finite_toSet tensor.entries)).mpr fun entry member =>
      line.eventually ((smooth entry member).varies_moved atoms).lasts
  have rates (t : ℝ) (there : tensor.SmoothAt 2 (Expr.moved assignment atoms (t • speeds))) :
      ∃ slopes : Fin m → ℝ, rate.Holds (Expr.moved assignment atoms (t • speeds))
          (replicateCol (Fin 1) slopes) ∧
        ∀ row : Fin m, HasDerivAt (fun time : ℝ => (tensor.component row).valueIn
          (Expr.moved assignment atoms (time • speeds))) (slopes row) t := by
    have once : tensor.SmoothAt 1 _ := fun entry member => (there entry member).mono one_le_two
    obtain ⟨slopes, holds, each⟩ := once.directional (fun index => by
      rw [Expr.moved, Option.isSome_map]
      exact known index) (steady t) height made multiplied
    exact ⟨slopes, holds, fun row => hasDerivAt_moved_line (each row)⟩
  have first (row : Fin m) : ∀ᶠ t in 𝓝 (0 : ℝ), HasDerivAt
      (fun t : ℝ => (tensor.component row).valueIn (Expr.moved assignment atoms (t • speeds)))
      ((rate.component row).valueIn (Expr.moved assignment atoms (t • speeds))) t := by
    filter_upwards [lasts] with t there
    obtain ⟨slopes, holds, each⟩ := rates t there
    rw [(holds.component row).valueIn_eq]
    exact each row
  have rateSmooth : rate.SmoothAt 1 assignment := by
    refine forall_matmul Expr.smooth_zero Expr.smooth_times Expr.smooth_sum
      (forall_jacobian (fun entry member => (smooth entry member).derivative) made) ?_ multiplied
    intro entry member
    obtain ⟨index, rfl⟩ := List.mem_ofFn.mp member
    exact .atom (moving index)
  obtain ⟨_, holds, _⟩ := rates 0 (by rwa [zero_smul, Expr.moved_zero])
  have rateHeight : rate.entries.length = m := holds.length_eq.trans (Nat.mul_one m)
  have start := steady 0
  rw [zero_smul, Expr.moved_zero] at start
  obtain ⟨seconds, holds, slopes⟩ :=
    rateSmooth.directional known start rateHeight again final
  exact ⟨seconds, holds, fun row => ⟨_, first row, slopes row⟩⟩

end Tensor

end Derivatives

variable {κ : Type} [Scalar κ]

namespace Coordinate

def symbols (coordinate : Coordinate) : List Symbol :=
  [coordinate.position, coordinate.velocity, coordinate.acceleration]

/-- The symbols of the coordinates, position by position, then by velocity and acceleration. -/
def allSymbols (coordinates : List Coordinate) : List Symbol :=
  coordinates.map position ++ coordinates.map velocity ++ coordinates.map acceleration

theorem mem_allSymbols {coordinates : List Coordinate} {symbol : Symbol} :
    symbol ∈ allSymbols coordinates ↔ ∃ coordinate ∈ coordinates, symbol ∈ coordinate.symbols := by
  simp only [allSymbols, symbols, List.mem_append, List.mem_map, List.mem_cons, List.not_mem_nil,
    or_false, and_or_left, exists_or, eq_comm (a := symbol), or_assoc]

end Coordinate

namespace Loop

open Matrix

/-- The coordinates of a loop are distinct scalars, only issued symbols are read, and the
constraint reads no rates of the dependent coordinates. -/
structure Geometry.Admissible (limit : Nat) (geometry : Geometry κ) : Prop where
  distinct : (Coordinate.allSymbols (geometry.independent ++ geometry.dependent)).Nodup
  scalar : ∀ symbol ∈ Coordinate.allSymbols (geometry.independent ++ geometry.dependent),
    symbol.shape = .scalar
  issued : ∀ symbol ∈ Coordinate.allSymbols (geometry.independent ++ geometry.dependent),
    symbol.number < limit
  constraint : geometry.constraint.Regular limit
  solution : ∀ expr ∈ geometry.solution, expr.Regular limit
  still : ∀ atom ∈ geometry.constraint.atoms, ∀ coordinate ∈ geometry.dependent,
    atom.symbol ≠ coordinate.velocity ∧ atom.symbol ≠ coordinate.acceleration

/-- The symbols that follow from the velocities and accelerations of the independent
coordinates. -/
def Geometry.followers (geometry : Geometry κ) : List Symbol :=
  geometry.dependent.map Coordinate.velocity ++ geometry.dependent.map Coordinate.acceleration

structure Derivation.Sound (derivation : Derivation κ) : Prop where
  jacobians : derivation.geometry.jacobians = .ok derivation.jacobians
  drift : derivation.geometry.drift = .ok derivation.drift

namespace Geometry.Admissible

variable {limit : Nat} {geometry : Geometry κ} (admissible : geometry.Admissible limit)

include admissible

theorem separate : ((geometry.independent ++ geometry.dependent).map Coordinate.velocity).Nodup ∧
    ((geometry.independent ++ geometry.dependent).map Coordinate.acceleration).Nodup ∧
    (∀ first ∈ geometry.independent ++ geometry.dependent,
      ∀ second ∈ geometry.independent ++ geometry.dependent,
        first.velocity ≠ second.acceleration ∧ first.position ≠ second.velocity) := by
  have distinct := admissible.distinct
  rw [Coordinate.allSymbols, List.nodup_append', List.nodup_append'] at distinct
  obtain ⟨⟨_, velocities, positions⟩, accelerations, rates⟩ := distinct
  refine ⟨velocities, accelerations, fun first among second inside => ⟨fun same => ?_, fun same => ?_⟩⟩
  · exact rates (List.mem_append_right _ (List.mem_map_of_mem among))
      (same ▸ List.mem_map_of_mem inside)
  · exact positions (List.mem_map_of_mem among) (same ▸ List.mem_map_of_mem inside)

theorem regular {coordinate : Coordinate}
    (member : coordinate ∈ geometry.independent ++ geometry.dependent) :
    ∀ symbol ∈ coordinate.symbols, (Atom.whole symbol).Regular limit := by
  intro symbol among
  have inside := Coordinate.mem_allSymbols.mpr ⟨coordinate, member, among⟩
  exact ⟨Atom.within_whole (admissible.scalar symbol inside), admissible.issued symbol inside⟩

theorem reads_constraint : geometry.constraint.ReadsOnly (Clear limit geometry.followers) := by
  refine admissible.constraint.readsOnly.mono fun atom ⟨regular, member⟩ => ⟨regular, ?_⟩
  simp only [Geometry.followers, List.mem_append, List.mem_map, not_or, not_exists, not_and]
  exact ⟨fun coordinate among same => (admissible.still atom member coordinate among).1 same.symm,
    fun coordinate among same => (admissible.still atom member coordinate among).2 same.symm⟩

theorem reads_jacobians {jacobians : Jacobians κ} (made : geometry.jacobians = .ok jacobians) :
    jacobians.independent.ReadsOnly (Clear limit geometry.followers) ∧
      jacobians.dependent.ReadsOnly (Clear limit geometry.followers) := by
  simp only [Geometry.jacobians, bind_eq_ok] at made
  obtain ⟨independent, first, dependent, second, same⟩ := made
  cases same
  exact ⟨admissible.reads_constraint.jacobian first, admissible.reads_constraint.jacobian second⟩

theorem reads_velocities {coordinates : List Coordinate}
    (among : ∀ coordinate ∈ coordinates, coordinate ∈ geometry.independent ++ geometry.dependent) :
    (Tensor.ofColumn (coordinates.map Coordinate.velocityExpr) : Tensor κ).ReadsOnly
      (Clear limit (geometry.dependent.map Coordinate.acceleration)) := by
  refine Tensor.readsOnly_ofColumn (List.forall_mem_map.mpr fun coordinate member => ?_)
  refine Expr.readsOnly_atom.mpr ⟨admissible.regular (among _ member) _ (by simp [Coordinate.symbols]),
    fun inside => ?_⟩
  obtain ⟨other, follows, same⟩ := List.mem_map.mp inside
  exact (admissible.separate.2.2 _ (among _ member) other (List.mem_append_right _ follows)).1 same.symm

omit admissible in
theorem mem_followers {symbol : Symbol} : symbol ∈ geometry.followers ↔
    ∃ coordinate ∈ geometry.dependent,
      symbol = coordinate.velocity ∨ symbol = coordinate.acceleration := by
  simp only [Geometry.followers, List.mem_append, List.mem_map, ← exists_or, ← and_or_left,
    eq_comm]

theorem issued_followers {symbol : Symbol} (follows : symbol ∈ geometry.followers) :
    symbol.number < limit := by
  obtain ⟨coordinate, member, same⟩ := mem_followers.mp follows
  refine (admissible.regular (List.mem_append_right _ member) symbol ?_).issued
  rcases same with rfl | rfl <;> simp [Coordinate.symbols]

theorem issued_position {coordinate : Coordinate} (member : coordinate ∈ geometry.dependent) :
    coordinate.position.number < limit :=
  (admissible.regular (List.mem_append_right _ member) _ List.mem_cons_self).issued

theorem reads_drivers :
    (Tensor.ofColumn (geometry.independent.map Coordinate.velocityExpr) : Tensor κ).ReadsOnly
        (Clear limit geometry.followers) ∧
      (Tensor.ofColumn (geometry.independent.map Coordinate.accelerationExpr) : Tensor κ).ReadsOnly
        (Clear limit geometry.followers) := by
  obtain ⟨velocities, accelerations, apart⟩ := admissible.separate
  rw [List.map_append] at velocities accelerations
  constructor
  all_goals
    refine Tensor.readsOnly_ofColumn (List.forall_mem_map.mpr fun coordinate member => ?_)
    have among := List.mem_append_left geometry.dependent member
    refine Expr.readsOnly_atom.mpr
      ⟨admissible.regular among _ (by simp [Coordinate.symbols]), fun inside => ?_⟩
    obtain ⟨other, follows, same | same⟩ := mem_followers.mp inside
  · exact velocities.disjoint (List.mem_map_of_mem member)
      (List.mem_map.mpr ⟨other, follows, same.symm⟩)
  · exact (apart _ among other (List.mem_append_right _ follows)).1 same
  · exact (apart other (List.mem_append_right _ follows) _ among).1 same.symm
  · exact accelerations.disjoint (List.mem_map_of_mem member)
      (List.mem_map.mpr ⟨other, follows, same.symm⟩)

theorem reads_drift {drift : Tensor κ} (made : geometry.drift = .ok drift) :
    drift.ReadsOnly (Clear limit (geometry.dependent.map Coordinate.acceleration)) := by
  simp only [Geometry.drift, bind_eq_ok] at made
  obtain ⟨jacobian, first, rate, second, rateJacobian, third, final⟩ := made
  have constraint := admissible.reads_constraint.mono fun atom clear =>
    clear.mono le_rfl fun symbol => List.mem_append_right (geometry.dependent.map Coordinate.velocity)
  have velocities := admissible.reads_velocities fun _ member => member
  exact (((constraint.jacobian first).matmul velocities second).jacobian third).matmul velocities final

end Geometry.Admissible

theorem reads_of_takes [Exact κ] {expr : Expr κ} {symbol : Symbol} {left right : Environment}
    (agree : ∀ other, other ≠ symbol → left other = right other) {x y : ℝ}
    (first : expr.Takes left.read x) (second : expr.Takes right.read y) (differ : x ≠ y) :
    ∃ atom ∈ expr.occurrences, atom.symbol = symbol := by
  by_contra unread
  push Not at unread
  refine differ ((Expr.carries_of_agree expr ?_ x first).unique second)
  intro atom occurs value known
  rwa [Environment.read, ← agree atom.symbol (unread atom occurs)]

/-- The values of all symbols are one, but for those of the given one. -/
noncomputable def ones (symbol : Symbol) (value : ℝ) : Environment :=
  fun other _ => some (open Classical in if other = symbol then value else 1)

theorem ones_agree {symbol : Symbol} {x y : ℝ} (other : Symbol) (differs : other ≠ symbol) :
    ones symbol x other = ones symbol y other := by
  funext index
  simp [ones, differs]

section

variable [Exact κ] {symbol bvu bPrime : Symbol} {coordinates : List Coordinate} {m : Nat}
  {product total : Tensor κ} {index : Nat} {entry : Expr κ}

theorem map_eq_ofFn {α β : Type} (change : α → β) (items : List α) :
    items.map change = List.ofFn fun place : Fin items.length => change items[place] := by
  apply List.ext_getElem <;> simp

theorem holds_ones (rate : Coordinate → Symbol) (value : ℝ)
    (apart : ∀ coordinate ∈ coordinates, rate coordinate ≠ symbol) :
    (Tensor.ofColumn (coordinates.map fun coordinate =>
      (.atom (.whole (rate coordinate)) : Expr κ))).Holds (ones symbol value).read
        (replicateCol (Fin 1) fun _ : Fin coordinates.length => 1) := by
  rw [map_eq_ofFn]
  refine Tensor.holds_ofFn fun place => (Expr.takes_atom _ _).mpr ?_
  have differs := apart _ (List.getElem_mem place.isLt)
  simp [Environment.read, Atom.symbol, ones, differs]

theorem takes_ones (rate : Coordinate → Symbol)
    (shape : bvu.shape = Shape.ofDimensions m coordinates.length)
    (apart : ∀ coordinate ∈ coordinates, rate coordinate ≠ symbol)
    (multiplied : (Tensor.ofSymbol bvu).matmul (Tensor.ofColumn (coordinates.map fun coordinate =>
      (.atom (.whole (rate coordinate)) : Expr κ))) = .ok product) (value : ℝ) :
    product.Holds (ones symbol value).read (replicateCol (Fin 1) fun _ : Fin m =>
      coordinates.length * (open Classical in if bvu = symbol then value else 1)) := by
  have factor : (Tensor.ofSymbol bvu : Tensor κ).Holds (ones symbol value).read
      (.of fun (_ : Fin m) (_ : Fin coordinates.length) =>
        (open Classical in if bvu = symbol then value else 1)) :=
    Tensor.holds_ofSymbol shape fun _ _ => rfl
  convert factor.matmul (holds_ones rate value apart) multiplied using 1
  ext row column
  simp [mul_apply]

theorem reads_ratio (shape : bvu.shape = Shape.ofDimensions m coordinates.length)
    (some : coordinates ≠ []) (apart : ∀ coordinate ∈ coordinates, coordinate.velocity ≠ bvu)
    (multiplied : (Tensor.ofSymbol bvu).matmul
      (Tensor.ofColumn (coordinates.map Coordinate.velocityExpr)) = .ok product)
    (found : product.entryAt index = .ok entry) :
    ∃ atom ∈ entry.occurrences, atom.symbol = bvu := by
  have holds := takes_ones Coordinate.velocity shape apart multiplied
  have bound : index < m := by
    have inside := (Tensor.entryAt_eq_ok.mp found).1
    rwa [(holds 0).shape_eq, Shape.size_ofDimensions, Nat.mul_one] at inside
  have takes (value : ℝ) : entry.Takes (ones bvu value).read (coordinates.length * value) := by
    have component := (holds value).component ⟨index, bound⟩
    rwa [Tensor.component_eq_of_entryAt found, if_pos rfl] at component
  refine reads_of_takes (ones_agree (x := 0) (y := 1)) (takes 0) (takes 1) ?_
  simpa [eq_comm] using some

theorem reads_compensation (shape : bvu.shape = Shape.ofDimensions m coordinates.length)
    (prime : bPrime.shape = Shape.ofDimensions m 1) (differs : bvu ≠ bPrime)
    (apart : ∀ coordinate ∈ coordinates, coordinate.acceleration ≠ bPrime)
    (multiplied : (Tensor.ofSymbol bvu).matmul
      (Tensor.ofColumn (coordinates.map Coordinate.accelerationExpr)) = .ok product)
    (added : product.add (.ofSymbol bPrime) = .ok total)
    (found : total.entryAt index = .ok entry) :
    ∃ atom ∈ entry.occurrences, atom.symbol = bPrime := by
  have first := takes_ones Coordinate.acceleration shape apart multiplied
  have second (value : ℝ) : (Tensor.ofSymbol bPrime : Tensor κ).Holds (ones bPrime value).read
      (replicateCol (Fin 1) fun _ : Fin m => value) :=
    Tensor.holds_ofSymbol prime fun _ _ => by simp [ones]
  have holds (value : ℝ) : total.Holds (ones bPrime value).read
      (replicateCol (Fin 1) fun _ : Fin m => coordinates.length + value) := by
    convert (first value).add (second value) added using 1
    ext row column
    simp [differs]
  have bound : index < m := by
    have inside := (Tensor.entryAt_eq_ok.mp found).1
    rwa [(holds 0).shape_eq, Shape.size_ofDimensions, Nat.mul_one] at inside
  have takes (value : ℝ) : entry.Takes (ones bPrime value).read (coordinates.length + value) := by
    have component := (holds value).component ⟨index, bound⟩
    rwa [Tensor.component_eq_of_entryAt found] at component
  exact reads_of_takes ones_agree (takes 0) (takes 1) (by simp)

end

/-- What the symbols of a registered loop carry, each in terms of the others. -/
structure Registered [Exact κ] (derivation : Derivation κ) (artifacts : Artifacts κ)
    (graph : Graph κ) : Prop where
  independent_eq : artifacts.independent = derivation.geometry.independent
  dependent_eq : artifacts.dependent = derivation.geometry.dependent
  constraint_eq : artifacts.constraint = derivation.geometry.constraint
  ju_shape : artifacts.ju.shape =
    Shape.ofDimensions derivation.geometry.dependent.length derivation.geometry.independent.length
  jv_shape : artifacts.jv.shape =
    Shape.ofDimensions derivation.geometry.dependent.length derivation.geometry.dependent.length
  jvInverse_shape : artifacts.jvInverse.shape =
    Shape.ofDimensions derivation.geometry.dependent.length derivation.geometry.dependent.length
  bvu_shape : artifacts.bvu.shape =
    Shape.ofDimensions derivation.geometry.dependent.length derivation.geometry.independent.length
  drift_shape : artifacts.drift.shape = Shape.ofDimensions derivation.geometry.dependent.length 1
  bPrime_shape : artifacts.bPrime.shape = Shape.ofDimensions derivation.geometry.dependent.length 1
  square : derivation.jacobians.dependent.shape =
    Shape.ofDimensions derivation.geometry.dependent.length derivation.geometry.dependent.length
  ju : graph.Carries artifacts.ju derivation.jacobians.independent
  jv : graph.Carries artifacts.jv derivation.jacobians.dependent
  jvInverse : ∃ inverse, (Tensor.ofSymbol artifacts.jv).inverse = .ok inverse ∧
    graph.Carries artifacts.jvInverse inverse
  bvu : ∃ ratio, (Tensor.ofSymbol artifacts.jvInverse).matmul (.ofSymbol artifacts.ju) =
    .ok ratio ∧ graph.Carries artifacts.bvu ratio.negate
  velocities : ∃ followed : Tensor κ, (Tensor.ofSymbol artifacts.bvu).matmul
      (.ofColumn (derivation.geometry.independent.map Coordinate.velocityExpr)) = .ok followed ∧
    ∀ index symbol, (derivation.geometry.dependent.map Coordinate.velocity)[index]? = some symbol →
      ∃ entry, followed.entryAt index = .ok entry ∧ graph.Carries symbol (.ofExpr entry)
  drift : graph.Carries artifacts.drift derivation.drift
  bPrime : ∃ compensation, (Tensor.ofSymbol artifacts.jvInverse).matmul
      (.ofSymbol artifacts.drift) = .ok compensation ∧
    graph.Carries artifacts.bPrime compensation.negate
  accelerations : ∃ driven total : Tensor κ, (Tensor.ofSymbol artifacts.bvu).matmul
      (.ofColumn (derivation.geometry.independent.map Coordinate.accelerationExpr)) = .ok driven ∧
    driven.add (.ofSymbol artifacts.bPrime) = .ok total ∧
    ∀ index symbol, (derivation.geometry.dependent.map Coordinate.acceleration)[index]? = some symbol →
      ∃ entry, total.entryAt index = .ok entry ∧ graph.Carries symbol (.ofExpr entry)

section

variable [Exact κ] {first second third session later : Graph.Session κ}

def Spared (session : Graph.Session κ) (symbols : List Symbol) (symbol : Symbol) : Prop :=
  symbol.number < session.supply.next ∧ symbol ∉ symbols

theorem Introduces.then {rows columns : Nat} {value : Tensor κ} {symbol : Symbol}
    {symbols : List Symbol} (introduces : Introduces rows columns value symbol first second)
    (rest : Grown (Spared second symbols) second third) : Grown (Spared first symbols) first third :=
  (introduces.grown.mono fun _ spared => spared.1).trans (rest.mono fun _ spared =>
    ⟨spared.1.trans_le introduces.grown.supply, spared.2⟩)

/-- A symbol carries a value that reads none of the given symbols. -/
structure Keeps (symbols : List Symbol) (session : Graph.Session κ) (symbol : Symbol)
    (value : Tensor κ) : Prop where
  carries : session.graph.Carries symbol value
  reads : value.ReadsOnly (Clear session.supply.next symbols)

theorem Keeps.grown {symbols : List Symbol} {symbol : Symbol} {value : Tensor κ}
    (keeps : Keeps symbols first symbol value)
    (rest : Grown (Spared first symbols) first second) : Keeps symbols second symbol value :=
  ⟨rest.carries keeps.carries (keeps.reads.mono fun _ clear => ⟨clear.regular.issued, clear.outside⟩),
    keeps.reads.mono fun _ clear => clear.mono rest.supply fun _ member => member⟩

theorem Keeps.mono {symbols fewer : List Symbol} {symbol : Symbol} {value : Tensor κ}
    (keeps : Keeps symbols session symbol value) (subset : ∀ symbol ∈ fewer, symbol ∈ symbols) :
    Keeps fewer session symbol value :=
  ⟨keeps.carries, keeps.reads.mono fun _ clear => clear.mono le_rfl subset⟩

theorem Introduces.keeps {rows columns : Nat} {value : Tensor κ} {symbol : Symbol}
    {symbols : List Symbol} (introduces : Introduces rows columns value symbol first second)
    (reads : value.ReadsOnly (Clear first.supply.next symbols)) : Keeps symbols second symbol value :=
  ⟨introduces.carries, reads.mono fun _ clear =>
    clear.mono introduces.grown.supply fun _ member => member⟩

omit [Exact κ] in
theorem clear_ofSymbol {limit : Nat} {symbols : List Symbol} {symbol : Symbol}
    (issued : symbol.number < limit) (outside : symbol ∉ symbols) :
    (Tensor.ofSymbol symbol : Tensor κ).ReadsOnly (Clear limit symbols) :=
  Tensor.readsOnly_ofSymbol fun _ same within => ⟨⟨within, same ▸ issued⟩, same ▸ outside⟩

omit [Exact κ] in
theorem registered_ne {limit : Nat} {node : Graph.Node κ} {entry : Expr κ} {symbol : Symbol}
    (issued : node.registered.Issued limit) (fresh : limit ≤ symbol.number)
    (reads : ∃ atom ∈ entry.occurrences, atom.symbol = symbol) : node.registered ≠ .ofExpr entry := by
  intro same
  obtain ⟨atom, occurs, rfl⟩ := reads
  rw [same] at issued
  have below := issued.numbers atom (Tensor.mem_atoms.mpr ⟨entry, List.mem_cons_self, occurs⟩)
  omega

/-- The session after the velocities have been defined. -/
structure Rated (geometry : Geometry κ) (jacobians : Jacobians κ) (ju jv jvInverse bvu : Symbol)
    (before after : Graph.Session κ) : Prop where
  ju_shape : ju.shape = Shape.ofDimensions geometry.dependent.length geometry.independent.length
  jv_shape : jv.shape = Shape.ofDimensions geometry.dependent.length geometry.dependent.length
  jvInverse_shape : jvInverse.shape =
    Shape.ofDimensions geometry.dependent.length geometry.dependent.length
  bvu_shape : bvu.shape = Shape.ofDimensions geometry.dependent.length geometry.independent.length
  square : jacobians.dependent.shape =
    Shape.ofDimensions geometry.dependent.length geometry.dependent.length
  grown : Grown (Spared before (geometry.dependent.map Coordinate.velocity)) before after
  fresh : before.supply.next ≤ jvInverse.number ∧ before.supply.next ≤ bvu.number
  issued : jvInverse.number < after.supply.next ∧ bvu.number < after.supply.next
  ju_keeps : Keeps (geometry.dependent.map Coordinate.acceleration) after ju jacobians.independent
  jv_keeps : Keeps (geometry.dependent.map Coordinate.acceleration) after jv jacobians.dependent
  jvInverse_keeps : ∃ inverse, (Tensor.ofSymbol jv).inverse = .ok inverse ∧
    Keeps (geometry.dependent.map Coordinate.acceleration) after jvInverse inverse
  bvu_keeps : ∃ ratio, (Tensor.ofSymbol jvInverse).matmul (.ofSymbol ju) = .ok ratio ∧
    Keeps (geometry.dependent.map Coordinate.acceleration) after bvu ratio.negate
  velocities : ∃ followed : Tensor κ, (Tensor.ofSymbol bvu).matmul
      (.ofColumn (geometry.independent.map Coordinate.velocityExpr)) = .ok followed ∧
    ∀ index symbol, (geometry.dependent.map Coordinate.velocity)[index]? = some symbol →
      ∃ entry, followed.entryAt index = .ok entry ∧
        Keeps (geometry.dependent.map Coordinate.acceleration) after symbol (.ofExpr entry)

variable {geometry : Geometry κ} {jacobians : Jacobians κ}

omit [Exact κ] in
theorem Geometry.Admissible.outside {limit : Nat} (admissible : geometry.Admissible limit)
    {symbol : Symbol} (fresh : limit ≤ symbol.number) : symbol ∉ geometry.followers :=
  fun follows => absurd (admissible.issued_followers follows) (not_lt.mpr fresh)

omit [Exact κ] in
theorem velocity_follows (symbol : Symbol)
    (member : symbol ∈ geometry.dependent.map Coordinate.velocity) : symbol ∈ geometry.followers :=
  List.mem_append_left _ member

omit [Exact κ] in
theorem acceleration_follows (symbol : Symbol)
    (member : symbol ∈ geometry.dependent.map Coordinate.acceleration) :
    symbol ∈ geometry.followers :=
  List.mem_append_right _ member

theorem rated_of_register {name : String} {ju jv jvInverse bvu : Symbol}
    {second third fourth fifth sixth : Graph.Session κ} {inverse ratio followed : Tensor κ}
    {done : Unit} (valid : first.graph.Valid first.supply.next)
    (recorded : first.graph.Recorded first.supply.next)
    (admissible : geometry.Admissible first.supply.next)
    (made : geometry.jacobians = .ok jacobians) (driven : geometry.independent ≠ [])
    (madeJu : (defineNew (name ++ "_Ju") geometry.dependent.length geometry.independent.length
      jacobians.independent).perform first = (.ok ju, second))
    (madeJv : (defineNew (name ++ "_Jv") geometry.dependent.length geometry.dependent.length
      jacobians.dependent).perform second = (.ok jv, third))
    (inverted : (Tensor.ofSymbol jv).inverse = .ok inverse)
    (madeInverse : (defineNew (name ++ "_Jv_inv") geometry.dependent.length
      geometry.dependent.length inverse).perform third = (.ok jvInverse, fourth))
    (divided : (Tensor.ofSymbol jvInverse).matmul (.ofSymbol ju) = .ok ratio)
    (madeRatio : (defineNew (name ++ "_Bvu") geometry.dependent.length
      geometry.independent.length ratio.negate).perform fourth = (.ok bvu, fifth))
    (follows : (Tensor.ofSymbol bvu).matmul
      (.ofColumn (geometry.independent.map Coordinate.velocityExpr)) = .ok followed)
    (velocities : (defineEach followed (geometry.dependent.map Coordinate.velocity)).perform fifth =
      (.ok done, sixth)) :
    Rated geometry jacobians ju jv jvInverse bvu first sixth := by
  obtain ⟨juReads, jvReads⟩ := admissible.reads_jacobians made
  have hasJu := defineNew_introduces valid (regular_of_clear juReads le_rfl) madeJu
  have hasJv := defineNew_introduces hasJu.grown.valid
    (regular_of_clear jvReads hasJu.grown.supply) madeJv
  have toThird := hasJu.grown.supply.trans hasJv.grown.supply
  have juOutside := admissible.outside hasJu.fresh
  have jvOutside := admissible.outside (hasJu.grown.supply.trans hasJv.fresh)
  have inverseReads := (clear_ofSymbol (κ := κ) hasJv.issued jvOutside).inverse inverted
  have hasInverse := defineNew_introduces hasJv.grown.valid
    (regular_of_clear inverseReads le_rfl) madeInverse
  have inverseFresh := toThird.trans hasInverse.fresh
  have juIssued := hasJu.issued.trans_le (hasJv.grown.supply.trans hasInverse.grown.supply)
  have ratioReads := ((clear_ofSymbol hasInverse.issued (admissible.outside inverseFresh)).matmul
    (clear_ofSymbol juIssued juOutside) divided).negate
  have hasRatio := defineNew_introduces hasInverse.grown.valid
    (regular_of_clear ratioReads le_rfl) madeRatio
  have toFourth := toThird.trans hasInverse.grown.supply
  have toFifth := toFourth.trans hasRatio.grown.supply
  have ratioFresh := toFourth.trans hasRatio.fresh
  have followedReads := (clear_ofSymbol hasRatio.issued (admissible.outside ratioFresh)).matmul
    (admissible.reads_drivers.1.mono fun _ clear => clear.mono toFifth fun _ member => member) follows
  have head : Grown (fun symbol => symbol.number < first.supply.next) first fifth :=
    ((hasJu.grown.trans (hasJv.grown.mono fun _ old => old.trans_le hasJu.grown.supply)).trans
      (hasInverse.grown.mono fun _ old => old.trans_le toThird)).trans
        (hasRatio.grown.mono fun _ old => old.trans_le toFourth)
  have old (symbol : Symbol) (member : symbol ∈ geometry.dependent.map Coordinate.velocity) :=
    admissible.issued_followers (velocity_follows symbol member)
  obtain ⟨velocityNodup, _, _⟩ := admissible.separate
  rw [List.map_append] at velocityNodup
  obtain ⟨atSixth, same, each⟩ := defineEach_carries 0 hasRatio.grown.valid
    velocityNodup.of_append_right (fun symbol member => (old symbol member).trans_le toFifth)
    (followedReads.mono fun _ clear => clear.mono le_rfl velocity_follows)
    (fun symbol member index entry found node live => by
      rw [head.nodeOf?_eq (old symbol member)] at live
      refine registered_ne (recorded.of_nodeOf? live) ratioFresh
        (reads_ratio hasRatio.shape_eq driven (fun coordinate among same => ?_) follows found)
      have issued := (admissible.regular (List.mem_append_left _ among) coordinate.velocity
        (by simp [Coordinate.symbols])).issued
      rw [same] at issued
      exact absurd issued (not_lt.mpr ratioFresh)) velocities
  have supply := congrArg SymbolSupply.next same
  -- what has been defined is kept
  have afterFifth : Grown (Spared fifth geometry.followers) fifth sixth :=
    atSixth.mono fun symbol spared member => spared.2 (velocity_follows symbol member)
  have afterFourth := hasRatio.then afterFifth
  have afterThird := hasInverse.then afterFourth
  have afterSecond := hasJv.then afterThird
  exact {
    ju_shape := hasJu.shape_eq
    jv_shape := hasJv.shape_eq
    jvInverse_shape := hasInverse.shape_eq
    bvu_shape := hasRatio.shape_eq
    square := hasJv.value_shape
    grown := (head.mono fun _ spared => spared.1).trans (atSixth.mono fun _ spared => spared.2)
    fresh := ⟨inverseFresh, ratioFresh⟩
    issued := ⟨hasInverse.issued.trans_le (hasRatio.grown.supply.trans supply.ge),
      supply ▸ hasRatio.issued⟩
    ju_keeps := ((hasJu.keeps juReads).grown afterSecond).mono acceleration_follows
    jv_keeps := ((hasJv.keeps (jvReads.mono fun _ clear => clear.mono hasJu.grown.supply
      fun _ member => member)).grown afterThird).mono acceleration_follows
    jvInverse_keeps := ⟨inverse, inverted,
      ((hasInverse.keeps inverseReads).grown afterFourth).mono acceleration_follows⟩
    bvu_keeps := ⟨ratio, divided,
      ((hasRatio.keeps ratioReads).grown afterFifth).mono acceleration_follows⟩
    velocities := ⟨followed, follows, fun index symbol at_ => by
      obtain ⟨entry, found, carries⟩ := each index symbol at_
      rw [Nat.zero_add] at found
      refine ⟨entry, found, carries, (readsOnly_entryAt followedReads found).mono fun _ clear => ?_⟩
      exact clear.mono supply.ge acceleration_follows⟩ }

theorem register_registered {name : String} {derivation : Derivation κ} {artifacts : Artifacts κ}
    (valid : session.graph.Valid session.supply.next)
    (recorded : session.graph.Recorded session.supply.next)
    (admissible : derivation.geometry.Admissible session.supply.next) (sound : derivation.Sound)
    (driven : derivation.geometry.independent ≠ [])
    (ran : (register name derivation).perform session = (.ok artifacts, later)) :
    Registered derivation artifacts later.graph := by
  unfold register at ran
  simp only [Action.bind_eq_ok, Action.ofAlgebra_eq_ok, Action.pure_eq_ok] at ran
  obtain ⟨_, first, positions, ju, second, madeJu, jv, third, madeJv, inverse, _, ⟨inverted, rfl⟩,
    jvInverse, fourth, madeInverse, ratio, _, ⟨divided, rfl⟩, bvu, fifth, madeRatio, followed, _,
    ⟨follows, rfl⟩, _, sixth, velocities, drift, seventh, madeDrift, compensation, _,
    ⟨compensated, rfl⟩, bPrime, eighth, madePrime, accelerated, _, ⟨accelerates, rfl⟩, total, _,
    ⟨added, rfl⟩, _, later, accelerations, rfl, rfl⟩ := ran
  obtain ⟨valid, recorded, supply⟩ := forM_define_valid valid recorded
    (fun item member => admissible.issued_position (List.of_mem_zip member).1)
    (fun item member => admissible.solution _ (List.of_mem_zip member).2) positions
  rw [← supply] at admissible
  have rated := rated_of_register valid recorded admissible sound.jacobians driven madeJu madeJv
    inverted madeInverse divided madeRatio follows velocities
  obtain ⟨inverseFresh, ratioFresh⟩ := rated.fresh
  obtain ⟨inverseIssued, ratioIssued⟩ := rated.issued
  have toSixth := rated.grown.supply
  have driftReads := (admissible.reads_drift sound.drift).mono fun _ clear =>
    clear.mono toSixth fun _ member => member
  have hasDrift := defineNew_introduces rated.grown.valid (regular_of_clear driftReads le_rfl) madeDrift
  have driftFresh := toSixth.trans hasDrift.fresh
  have compensationReads :=
    ((clear_ofSymbol (inverseIssued.trans_le hasDrift.grown.supply)
      (admissible.outside inverseFresh)).matmul
        (clear_ofSymbol hasDrift.issued (admissible.outside driftFresh)) compensated).negate
  have hasPrime := defineNew_introduces hasDrift.grown.valid
    (regular_of_clear compensationReads le_rfl) madePrime
  have toSeventh := toSixth.trans hasDrift.grown.supply
  have toEighth := toSeventh.trans hasPrime.grown.supply
  have primeFresh := toSeventh.trans hasPrime.fresh
  have ratioStill := ratioIssued.trans_le (hasDrift.grown.supply.trans hasPrime.grown.supply)
  have totalReads := ((clear_ofSymbol ratioStill (admissible.outside ratioFresh)).matmul
    (admissible.reads_drivers.2.mono fun _ clear => clear.mono toEighth fun _ member => member)
      accelerates).add (clear_ofSymbol hasPrime.issued (admissible.outside primeFresh)) added
  have old (symbol : Symbol)
      (member : symbol ∈ derivation.geometry.dependent.map Coordinate.acceleration) :=
    admissible.issued_followers (acceleration_follows symbol member)
  have head := (rated.grown.trans (hasDrift.grown.mono fun _ spared =>
    spared.1.trans_le toSixth)).trans (hasPrime.grown.mono fun _ spared =>
      spared.1.trans_le toSeventh)
  obtain ⟨_, accelerationNodup, apart⟩ := admissible.separate
  rw [List.map_append] at accelerationNodup
  obtain ⟨atLast, _, each⟩ := defineEach_carries 0 hasPrime.grown.valid
    accelerationNodup.of_append_right (fun symbol member => (old symbol member).trans_le toEighth)
    (totalReads.mono fun _ clear => clear.mono le_rfl acceleration_follows)
    (fun symbol member index entry found node live => by
      rw [head.nodeOf?_eq ⟨old symbol member, fun velocity => ?_⟩] at live
      · refine registered_ne (recorded.of_nodeOf? live) primeFresh (reads_compensation
          rated.bvu_shape hasPrime.shape_eq ?_ (fun coordinate among same => ?_) accelerates added
            found)
        · rintro rfl
          exact absurd (ratioIssued.trans_le hasDrift.grown.supply) (not_lt.mpr hasPrime.fresh)
        · have issued := (admissible.regular (List.mem_append_left _ among) coordinate.acceleration
            (by simp [Coordinate.symbols])).issued
          rw [same] at issued
          exact absurd issued (not_lt.mpr primeFresh)
      · obtain ⟨first, among, rfl⟩ := List.mem_map.mp velocity
        obtain ⟨second, inside, same⟩ := List.mem_map.mp member
        exact (apart first (List.mem_append_right _ among) second
          (List.mem_append_right _ inside)).1 same.symm) accelerations
  -- what has been defined is kept
  have afterEighth : Grown (Spared eighth (derivation.geometry.dependent.map
      Coordinate.acceleration)) eighth later := atLast.mono fun _ spared => spared.2
  have afterSeventh := hasPrime.then afterEighth
  have afterSixth := hasDrift.then afterSeventh
  exact {
    independent_eq := rfl
    dependent_eq := rfl
    constraint_eq := rfl
    ju_shape := rated.ju_shape
    jv_shape := rated.jv_shape
    jvInverse_shape := rated.jvInverse_shape
    bvu_shape := rated.bvu_shape
    drift_shape := hasDrift.shape_eq
    bPrime_shape := hasPrime.shape_eq
    square := rated.square
    ju := (rated.ju_keeps.grown afterSixth).carries
    jv := (rated.jv_keeps.grown afterSixth).carries
    jvInverse := by
      obtain ⟨inverse, inverted, keeps⟩ := rated.jvInverse_keeps
      exact ⟨inverse, inverted, (keeps.grown afterSixth).carries⟩
    bvu := by
      obtain ⟨ratio, divided, keeps⟩ := rated.bvu_keeps
      exact ⟨ratio, divided, (keeps.grown afterSixth).carries⟩
    velocities := by
      obtain ⟨followed, follows, each⟩ := rated.velocities
      refine ⟨followed, follows, fun index symbol at_ => ?_⟩
      obtain ⟨entry, found, keeps⟩ := each index symbol at_
      exact ⟨entry, found, (keeps.grown afterSixth).carries⟩
    drift := ((hasDrift.keeps driftReads).grown afterSeventh).carries
    bPrime := ⟨compensation, compensated, (((hasPrime.keeps compensationReads).mono
      acceleration_follows).grown afterEighth).carries⟩
    accelerations := ⟨accelerated, total, accelerates, added, fun index symbol at_ => by
      obtain ⟨entry, found, carries⟩ := each index symbol at_
      rw [Nat.zero_add] at found
      exact ⟨entry, found, carries⟩⟩ }

end

end Loop

end Mechanism
