import Mechanism.Proofs.Expr.Guarded
import Mechanism.Proofs.Loop.Closure
import Mechanism.Proofs.Loop.Persistence

/-!
The rates of a registered loop satisfy its differentiated constraint, wherever the constraint is
smooth and its derivative by the dependent coordinates can be inverted.
-/

namespace Mechanism

namespace Loop

section

open Matrix

variable {κ : Type} [Scalar κ] [Exact κ] {environment : Environment} {m n : Nat}
  {graph : Graph κ} {artifacts : Artifacts κ} {geometry : Geometry κ}

/-! ### The differentiated constraint -/

/-- The symbols of a loop have the values of their equations, and removed symbols the values of what
they stand for. -/
structure Artifacts.Follows (artifacts : Artifacts κ) (graph : Graph κ) (environment : Environment) :
    Prop where
  symbols : ∀ symbol ∈ artifacts.symbols, graph.Settles environment symbol
  rates : ∀ coordinate ∈ artifacts.dependent, graph.Settles environment coordinate.velocity ∧
    graph.Settles environment coordinate.acceleration
  removed : ∀ symbol, graph.Respects environment symbol

theorem Artifacts.Follows.of_tidy (tidy : graph.Tidy) (inputs : Symbol → Nat → ℝ)
    (artifacts : Artifacts κ) : artifacts.Follows graph (graph.unfolding inputs) where
  symbols := fun symbol _ => tidy.settles inputs symbol
  rates := fun _ _ => ⟨tidy.settles inputs _, tidy.settles inputs _⟩
  removed := tidy.respects _

/-- The equations of the loop have the derivatives of its constraint and the rates of its dependent
coordinates as their values. -/
structure Artifacts.Computes (artifacts : Artifacts κ) (graph : Graph κ) (environment : Environment)
    (Ju : Matrix (Fin m) (Fin n) ℝ) (Jv : Matrix (Fin m) (Fin m) ℝ) : Prop where
  ju : graph.Yields environment artifacts.ju Ju
  jv : graph.Yields environment artifacts.jv Jv
  velocities : ∀ coordinate ∈ artifacts.dependent,
    graph.Yields environment coordinate.velocity !![coordinate.velocityIn environment]
  accelerations : ∀ coordinate ∈ artifacts.dependent,
    graph.Yields environment coordinate.acceleration !![coordinate.accelerationIn environment]

/-- The rates of all coordinates satisfy the constraint differentiated once and twice. -/
structure Geometry.Balanced (geometry : Geometry κ) (environment : Environment)
    (Ju : Matrix (Fin geometry.dependent.length) (Fin geometry.independent.length) ℝ)
    (Jv : Matrix (Fin geometry.dependent.length) (Fin geometry.dependent.length) ℝ) : Prop where
  velocities : Ju *ᵥ Coordinate.velocitiesIn environment geometry.independent +
    Jv *ᵥ Coordinate.velocitiesIn environment geometry.dependent = 0
  accelerations : ∃ seconds : Fin geometry.dependent.length → ℝ,
    (∀ row : Fin geometry.dependent.length, HasSecondDerivAt
      (fun time => (geometry.constraint.component row).valueIn
        (Coordinate.course environment (geometry.independent ++ geometry.dependent) time))
      (seconds row) 0) ∧
    Ju *ᵥ Coordinate.accelerationsIn environment geometry.independent +
      Jv *ᵥ Coordinate.accelerationsIn environment geometry.dependent + seconds = 0

/-- The independent coordinates have velocities and accelerations. -/
def Geometry.Moving (geometry : Geometry κ) (environment : Environment) : Prop :=
  ∀ coordinate ∈ geometry.independent, (environment coordinate.velocity 0).isSome ∧
    (environment coordinate.acceleration 0).isSome

variable [ExactDivision κ] {derivation : Derivation κ}
  {Ju : Matrix (Fin derivation.geometry.dependent.length)
    (Fin derivation.geometry.independent.length) ℝ}
  {Jv : Matrix (Fin derivation.geometry.dependent.length)
    (Fin derivation.geometry.dependent.length) ℝ}

theorem holds_drift {limit : Nat} (admissible : geometry.Admissible limit) {drift : Tensor κ}
    (made : geometry.drift = .ok drift) (height : geometry.constraint.entries.length = m)
    (smooth : geometry.constraint.SmoothAt 2 environment.read)
    (known : ∀ coordinate ∈ geometry.independent ++ geometry.dependent,
      (environment coordinate.position 0).isSome ∧ (environment coordinate.velocity 0).isSome) :
    ∃ seconds : Fin m → ℝ, drift.Holds environment.read (replicateCol (Fin 1) seconds) ∧
      ∀ row : Fin m, HasSecondDerivAt (fun time => (geometry.constraint.component row).valueIn
        (Coordinate.course environment (geometry.independent ++ geometry.dependent) time))
        (seconds row) 0 := by
  obtain ⟨_, _, apart⟩ := admissible.separate
  simp only [Geometry.drift, bind_eq_ok] at made
  obtain ⟨jacobian, first, rate, multiplied, rateJacobian, again, final⟩ := made
  simp only [map_eq_ofFn] at first multiplied again final
  generalize geometry.independent ++ geometry.dependent = coordinates at *
  have member (index : Fin coordinates.length) : coordinates[index] ∈ coordinates :=
    List.getElem_mem index.isLt
  have positions (index : Fin coordinates.length) :
      (environment.read coordinates[index].atom).isSome := (known _ (member index)).1
  have velocities (index : Fin coordinates.length) :
      environment.read (.whole coordinates[index].velocity) =
        some (Coordinate.velocitiesIn environment coordinates index) :=
    eq_some_getD (known _ (member index)).2
  refine smooth.directional_twice positions velocities (fun index other same => ?_) height first
    multiplied again final
  exact (apart _ (member other) _ (member index)).2 (congrArg Atom.symbol same)

/-! ### Registered rates -/

omit [ExactDivision κ] [Exact κ] in
theorem Derivation.Sound.jacobians_eq_ok (sound : derivation.Sound) :
    derivation.geometry.constraint.jacobian (derivation.geometry.independent.map Coordinate.atom) =
        .ok derivation.jacobians.independent ∧
      derivation.geometry.constraint.jacobian (derivation.geometry.dependent.map Coordinate.atom) =
        .ok derivation.jacobians.dependent := by
  have made := sound.jacobians
  simp only [Geometry.jacobians, bind_eq_ok] at made
  obtain ⟨first, driving, second, following, same⟩ := made
  rw [← Except.ok.inj same]
  exact ⟨driving, following⟩

namespace Registered

variable (registered : Registered derivation artifacts graph) (sound : derivation.Sound)

include registered

omit [ExactDivision κ] in
include sound in
theorem height : derivation.geometry.constraint.entries.length =
    derivation.geometry.dependent.length := by
  have shape := registered.square
  rw [Tensor.jacobian_eq_ok sound.jacobians_eq_ok.2, List.length_map] at shape
  exact (Shape.ofDimensions_injective shape).1

variable (follows : artifacts.Follows graph environment)

include follows

section

variable (jv : graph.Yields environment artifacts.jv Jv) (regular : Jv.det ≠ 0)

include jv regular

omit [ExactDivision κ] in
theorem holds_jvInverse : (Tensor.ofSymbol artifacts.jvInverse : Tensor κ).Holds environment.read
    Jv⁻¹ := by
  obtain ⟨inverse, inverted, carries⟩ := registered.jvInverse
  have symbol := jv.holds (follows.symbols _ (by simp [Artifacts.symbols])) registered.jv_shape
  exact (carries.yields follows.removed (symbol.inverse regular inverted)).holds
    (follows.symbols _ (by simp [Artifacts.symbols])) registered.jvInverse_shape

omit [ExactDivision κ] in
theorem holds_bvu (ju : graph.Yields environment artifacts.ju Ju) :
    (Tensor.ofSymbol artifacts.bvu : Tensor κ).Holds environment.read (-(Jv⁻¹ * Ju)) := by
  obtain ⟨ratio, divided, carries⟩ := registered.bvu
  have symbol := ju.holds (follows.symbols _ (by simp [Artifacts.symbols])) registered.ju_shape
  have product := (registered.holds_jvInverse follows jv regular).matmul symbol divided
  exact (carries.yields follows.removed product.negate).holds
    (follows.symbols _ (by simp [Artifacts.symbols])) registered.bvu_shape

omit [ExactDivision κ] in
theorem holds_bPrime {seconds : Fin derivation.geometry.dependent.length → ℝ}
    (drift : derivation.drift.Holds environment.read (replicateCol (Fin 1) seconds)) :
    (Tensor.ofSymbol artifacts.bPrime : Tensor κ).Holds environment.read
      (replicateCol (Fin 1) (-(Jv⁻¹ *ᵥ seconds))) := by
  obtain ⟨compensation, compensated, carries⟩ := registered.bPrime
  have symbol := (registered.drift.yields follows.removed drift).holds
    (follows.symbols _ (by simp [Artifacts.symbols])) registered.drift_shape
  have product := (registered.holds_jvInverse follows jv regular).matmul symbol compensated
  have same : -(Jv⁻¹ * replicateCol (Fin 1) seconds) =
      replicateCol (Fin 1) (-(Jv⁻¹ *ᵥ seconds)) := by
    rw [← replicateCol_mulVec]
    rfl
  exact (carries.yields follows.removed (same ▸ product.negate)).holds
    (follows.symbols _ (by simp [Artifacts.symbols])) registered.bPrime_shape

end

omit [ExactDivision κ] in
theorem velocities_yield (ju : graph.Yields environment artifacts.ju Ju)
    (jv : graph.Yields environment artifacts.jv Jv) (regular : Jv.det ≠ 0)
    (moving : derivation.geometry.Moving environment)
    (index : Fin derivation.geometry.dependent.length) :
    graph.Yields environment (derivation.geometry.dependent[index]).velocity
      !![(-(Jv⁻¹ * Ju) *ᵥ Coordinate.velocitiesIn environment derivation.geometry.independent)
        index] := by
  obtain ⟨followed, multiplied, each⟩ := registered.velocities
  have driving := holds_ofRates (κ := κ) Coordinate.velocity fun coordinate member =>
    (moving coordinate member).1
  have product := (registered.holds_bvu follows jv regular ju).matmul driving multiplied
  rw [← replicateCol_mulVec] at product
  exact yields_of_column product follows.removed each index (by simp)

omit [ExactDivision κ] in
theorem accelerations_yield (ju : graph.Yields environment artifacts.ju Ju)
    (jv : graph.Yields environment artifacts.jv Jv) (regular : Jv.det ≠ 0)
    (moving : derivation.geometry.Moving environment)
    {seconds : Fin derivation.geometry.dependent.length → ℝ}
    (drift : derivation.drift.Holds environment.read (replicateCol (Fin 1) seconds))
    (index : Fin derivation.geometry.dependent.length) :
    graph.Yields environment (derivation.geometry.dependent[index]).acceleration
      !![(-(Jv⁻¹ * Ju) *ᵥ Coordinate.accelerationsIn environment derivation.geometry.independent +
        -(Jv⁻¹ *ᵥ seconds)) index] := by
  obtain ⟨driven, total, multiplied, added, each⟩ := registered.accelerations
  have driving := holds_ofRates (κ := κ) Coordinate.acceleration fun coordinate member =>
    (moving coordinate member).2
  have product := (registered.holds_bvu follows jv regular ju).matmul driving multiplied
  have sum := product.add (registered.holds_bPrime follows jv regular drift) added
  rw [← replicateCol_mulVec, ← replicateCol_add] at sum
  exact yields_of_column sum follows.removed each index (by simp)

end Registered

end

/-! ### A guarded square -/

namespace GuardedSquare

open Mechanism.Expr Guarded Sample

/-! The square of a coordinate, guarded where that is zero. -/

def crank : Coordinate := coordinate 1

def output : Coordinate := coordinate 2

noncomputable def square : Expr RealNumber := pow (atom crank.atom) (num ⟨1 + 1⟩)

noncomputable def turning : Joint RealNumber := ⟨"crank", .revolute .z, crank, none, along 0⟩

noncomputable def turned : Joint RealNumber := ⟨"output", .revolute .z, output, none, along 1⟩

noncomputable def linkage : Problem RealNumber where
  chain := ⟨[turning, turned]⟩
  request := ⟨"square", .explicitJoint (guard crank.atom square), ⟨"a", some ⟨0⟩, along 0⟩,
    ⟨"b", some ⟨1⟩, along 0⟩, [⟨0⟩], [⟨1⟩]⟩

noncomputable def geometry : Geometry RealNumber :=
  Problem.coupled [crank] output (guard crank.atom square)

theorem reads_guard : (guard crank.atom square).ReadsOnly fun atom => atom = crank.atom := by
  intro atom occurs
  simpa [Guarded.guard, square, occurrences, zero] using occurs

theorem output_apart : (guard crank.atom square).symbols.contains output.position = false := by
  rw [← Bool.not_eq_true, List.contains_iff_mem]
  intro member
  obtain ⟨atom, among, same⟩ := Grouping.mem_distinct.mp member |> List.mem_map.mp
  rw [reads_guard atom (mem_atoms.mp among)] at same
  exact absurd same (by decide)

theorem solved : linkage.solve = .ok geometry := by
  change (if (guard crank.atom square).symbols.contains output.position then _ else _) = _
  rw [output_apart, if_neg Bool.false_ne_true]
  rfl

noncomputable def session : Graph.Session RealNumber :=
  (Graph.Command.declareInput crank.acceleration (.only .derivativeOfState) none).apply
    ((Graph.Command.declareInput crank.velocity (.only .state) none).apply
      ((Graph.Command.declareInput crank.position (.only .state) none).apply
        ⟨.ofSettings .standard Simplifier.keep, ⟨9⟩⟩))

theorem reachable : Graph.Reachable Simplifier.keep session := by
  refine .step _ (.step _ (.step _ (.start ⟨9⟩ Graph.new_standard) ?_) ?_) ?_
  · exact (by decide : 3 < 9)
  · exact (by decide : 4 < 9)
  · exact (by decide : 5 < 9)

noncomputable def inputs : Table Symbol CategorySet :=
  ⟨[(crank.position, .only .state), (crank.velocity, .only .state),
    (crank.acceleration, .only .derivativeOfState)]⟩

theorem graph_eq : session.graph =
    { Graph.ofSettings .standard Simplifier.keep with inputs := inputs, built := false } := rfl

theorem tidy : session.graph.Tidy := ⟨nofun, fun _ => rfl⟩

theorem vacant {symbol : Symbol} (apart : ∀ entry ∈ inputs.entries, entry.1 ≠ symbol) :
    session.graph.Vacant symbol := by
  refine ⟨rfl, ?_⟩
  have missing : inputs.entries.find? (fun entry => entry.1 = symbol) = none := by
    rw [List.find?_eq_none]
    exact fun entry member same => apart entry member (of_decide_eq_true same)
  have here : session.graph.isInput symbol =
      ((inputs.entries.find? fun entry => entry.1 = symbol).map (·.2)).isSome := rfl
  rw [here, missing]
  rfl

theorem room : Room session (Coordinate.allSymbols geometry.dependent) where
  indexed := nofun
  fresh := by
    intro symbol fresh
    refine vacant fun entry member same => ?_
    have old : ∀ entry ∈ inputs.entries, entry.1.number < 9 := by decide
    exact absurd (old entry member) (not_lt.mpr (same ▸ fresh))
  vacant := by
    intro symbol member
    refine vacant fun entry among => ?_
    revert entry
    revert symbol
    decide
  issued := by decide

theorem constraint_eq : geometry.constraint =
    .ofExpr (add [atom output.atom, mul [num minus, guard crank.atom square]]) :=
  congrArg Tensor.ofExpr minus_guard

theorem reads_constraint :
    geometry.constraint.ReadsOnly fun atom => atom = crank.atom ∨ atom = output.atom :=
  Tensor.readsOnly_ofExpr (readsOnly_minus (readsOnly_atom.mpr (.inr rfl))
    (reads_guard.mono fun _ => .inl))

theorem admissible : geometry.Admissible session.supply.next where
  distinct := by decide
  scalar := by decide
  issued := by decide
  constraint := by
    refine (reads_constraint.mono fun atom read => ?_).regular
    rcases read with rfl | rfl
    · exact ⟨(by decide : 0 < 1), (by decide : 3 < 9)⟩
    · exact ⟨(by decide : 0 < 1), (by decide : 6 < 9)⟩
  solution := by
    refine List.forall_mem_singleton.mpr fun atom member => ?_
    obtain rfl := reads_guard atom member
    exact ⟨(by decide : 0 < 1), (by decide : 3 < 9)⟩
  still := by
    intro atom member
    rcases reads_constraint.atoms member with rfl | rfl <;> decide

noncomputable def descriptor : Descriptor RealNumber :=
  ⟨linkage, { Settings.standard with checkSingularity := false }, .unresolved⟩

noncomputable def closed : Graph RealNumber := (descriptor.close session).session.graph

theorem closes : ∃ artifacts, (descriptor.close session).outcome = .ok artifacts :=
  Descriptor.close_succeeds rfl solved ⟨rfl, rfl⟩ rfl (by decide) room (by decide)
    (by decide)

noncomputable def driven (place : ℝ) (symbol : Symbol) (_ : Nat) : ℝ :=
  if symbol = crank.position then place else if symbol = crank.velocity then 1 else 0

/-- The values of all symbols when the crank is at the place. -/
noncomputable def environment (place : ℝ) : Environment := closed.unfolding (driven place)

theorem closed_tidy : closed.Tidy ∧ closed.inputs = inputs :=
  (lasting_tidy inputs).close (fun _ _ _ _ => trivial) ⟨tidy, congrArg Graph.inputs graph_eq⟩

theorem environment_input (place : ℝ) {symbol : Symbol} (member : symbol ∈ inputs.keys) :
    environment place symbol 0 = some (driven place symbol 0) := by
  have isInput : closed.isInput symbol = true := by
    rw [Graph.isInput, closed_tidy.2]
    revert symbol
    decide
  exact (Graph.unfolding_solves closed (driven place)).input 0 isInput

theorem place_eq (place : ℝ) : (environment place).read crank.atom = some place :=
  (environment_input place (by decide)).trans (congrArg some (if_pos rfl))

theorem takes_square {assignment : Assignment} {place : ℝ}
    (here : assignment crank.atom = some place) : square.Takes assignment (place ^ 2) := by
  refine takes_pow.mpr ⟨place, 1 + 1, (takes_atom _ _).mpr here, (takes_num _ _).mpr rfl, ?_⟩
  have whole : realPower place ((2 : ℤ) : ℝ) = some (place ^ (2 : ℤ)) :=
    realPower_whole.mpr ⟨fun _ => by decide, rfl⟩
  simpa [one_add_one_eq_two] using whole

theorem takes_guarded {assignment : Assignment} {place : ℝ}
    (here : assignment crank.atom = some place) :
    (Guarded.guard crank.atom square).Takes assignment (place ^ 2) := by
  refine takes_cond.mpr ⟨place, 0, (takes_atom _ _).mpr here, takes_zero, ?_⟩
  split
  · rename_i equal
    obtain rfl : place = 0 := equal
    simpa using takes_zero
  · exact takes_square here

theorem output_defined : ∃ node, closed.nodeOf? output.position = some node ∧
    ∀ environment index number,
      (Tensor.ofExpr (guard crank.atom square)).MeansAt environment index number →
        node.value.MeansAt environment index number := by
  obtain ⟨artifacts, outcome⟩ := closes
  have reached : Descriptor.Reached descriptor := .new ..
  have valid := (reachable.fit Simplifier.keep_tame).valid
  obtain ⟨derivation, middle, follows, queried, ran⟩ :=
    Descriptor.close_eq_ok reached.consistent rfl valid outcome
  have same : geometry = derivation.geometry := Except.ok.inj (solved.symm.trans follows.solved)
  have lawful := (queried.valid valid).toLawful
  have still : middle.graph.Tidy := by
    rw [queried.graph]
    exact ⟨tidy.defined, tidy.aliases⟩
  have indexed : middle.graph.Indexed := by
    rw [queried.graph]
    exact room.indexed
  have missing : middle.graph.nodeOf? output.position = none := by
    rw [queried.graph]
    rfl
  obtain ⟨rest, maintains, split⟩ := (lasting_defined output.position fun node =>
    ∀ environment index number,
      (Tensor.ofExpr (guard crank.atom square)).MeansAt environment index number →
        node.value.MeansAt environment index number).exists_rest descriptor.name derivation
    (fun _ _ => trivial) fun _ _ => trivial
  rw [split, ← same] at ran
  obtain ⟨_, second, positions, remaining⟩ := Action.bind_eq_ok.mp ran
  change (do define output.position (.ofExpr (guard crank.atom square)); pure ()).perform middle =
    _ at positions
  obtain ⟨_, third, defined, ended⟩ := Action.bind_eq_ok.mp positions
  obtain ⟨_, rfl⟩ := Action.pure_eq_ok.mp ended
  obtain ⟨graph, added, rfl⟩ := define_eq_ok.mp defined
  have regular : (Tensor.ofExpr (guard crank.atom square)).Regular session.supply.next :=
    ⟨rfl, admissible.solution⟩
  have apart : output.position ∉ (Tensor.ofExpr (guard crank.atom square)).symbols := by
    intro member
    obtain ⟨atom, among, at_⟩ := Tensor.mem_symbols.mp member
    rw [reads_guard atom (Tensor.mem_atoms_ofExpr.mp among)] at at_
    exact absurd at_ (by decide)
  obtain ⟨node, found, means⟩ := lawful.carries regular apart (by simp [missing]) added
  have defined : graph.Indexed := by
    rcases Graph.addEquation_ok added with ⟨_, rfl⟩ | ⟨_, _, _, _, rfl⟩
    · exact indexed
    · exact indexed.appendNode _
  have kept := maintains { middle with graph := graph } ⟨defined, node, found,
    fun environment => means environment fun read _ => (still.addEquation added).respects _ read⟩
  rw [remaining] at kept
  exact kept.2

theorem output_eq (place : ℝ) : (environment place).read output.atom = some (place ^ 2) := by
  obtain ⟨node, found, means⟩ := output_defined
  refine closed_tidy.1.settles (driven place) output.position node found 0 _ (means _ _ _ ?_)
  exact ⟨_, rfl, means_iff_takes.mpr (takes_guarded (place_eq place))⟩

theorem only (row : Fin geometry.dependent.length) : row = ⟨0, Nat.one_pos⟩ :=
  Fin.ext (Nat.lt_one_iff.mp row.isLt)

theorem valueIn_constraint {assignment : Assignment} {x y : ℝ}
    (driving : assignment crank.atom = some x) (following : assignment output.atom = some y)
    (row : Fin geometry.dependent.length) :
    (geometry.constraint.component row).valueIn assignment = y - x ^ 2 := by
  rw [only row]
  exact (takes_minus ((takes_atom _ _).mpr following) (takes_guarded driving)).valueIn_eq

/-! What the derivatives of the constraint are worth. -/

theorem varied (place t : ℝ) :
    (vary (environment place).read crank.atom t) crank.atom = some t ∧
      (vary (environment place).read crank.atom t) output.atom = some (place ^ 2) ∧
      (vary (environment place).read output.atom t) crank.atom = some place ∧
      (vary (environment place).read output.atom t) output.atom = some t :=
  ⟨Function.update_self .., (Function.update_of_ne (by decide) _ _).trans (output_eq place),
    (Function.update_of_ne (by decide) _ _).trans (place_eq place), Function.update_self ..⟩

noncomputable def drivingMatrix (place : ℝ) :
    Matrix (Fin geometry.dependent.length) (Fin geometry.independent.length) ℝ :=
  .of fun _ _ => -(place + place)

noncomputable def followingMatrix :
    Matrix (Fin geometry.dependent.length) (Fin geometry.dependent.length) ℝ :=
  1

theorem regular : followingMatrix.det ≠ 0 := by
  rw [followingMatrix, Matrix.det_one]
  exact one_ne_zero

theorem driving (place : ℝ) : geometry.constraint.HasPartials (environment place)
    geometry.independent (drivingMatrix place) := by
  rintro ⟨column, bound⟩
  obtain rfl : column = 0 := Nat.lt_one_iff.mp bound
  refine ⟨place, place_eq place, fun row => ?_⟩
  have slope : HasDerivAt (fun t : ℝ => place ^ 2 - t ^ 2) (-(place + place)) place := by
    simpa [two_mul] using (hasDerivAt_pow 2 place).const_sub (place ^ 2)
  refine slope.congr_of_eventuallyEq (.of_forall fun t => ?_)
  exact valueIn_constraint (varied place t).1 (varied place t).2.1 row

theorem following (place : ℝ) : geometry.constraint.HasPartials (environment place)
    geometry.dependent followingMatrix := by
  rintro ⟨column, bound⟩
  obtain rfl : column = 0 := Nat.lt_one_iff.mp bound
  refine ⟨place ^ 2, output_eq place, fun row => ?_⟩
  have slope : HasDerivAt (fun t : ℝ => t - place ^ 2) 1 (place ^ 2) :=
    (hasDerivAt_id _).sub_const _
  rw [only row, followingMatrix, Matrix.one_apply_eq]
  refine slope.congr_of_eventuallyEq (.of_forall fun t => ?_)
  exact valueIn_constraint (varied place t).2.2.1 (varied place t).2.2.2 _

theorem moving (place : ℝ) : geometry.Moving (environment place) := by
  intro coordinate member
  obtain rfl := List.mem_singleton.mp member
  constructor
  · exact Option.isSome_of_eq_some (environment_input place (by decide))
  · exact Option.isSome_of_eq_some (environment_input place (by decide))

theorem crank_velocity (place : ℝ) : crank.velocityIn (environment place) = 1 := by
  have apart : ¬crank.velocity = crank.position := by decide
  rw [Coordinate.velocityIn, environment_input place (by decide), driven, if_neg apart, if_pos rfl]
  rfl

theorem crank_acceleration (place : ℝ) : crank.accelerationIn (environment place) = 0 := by
  have apart : ¬crank.acceleration = crank.position ∧ ¬crank.acceleration = crank.velocity := by
    decide
  rw [Coordinate.accelerationIn, environment_input place (by decide), driven, if_neg apart.1,
    if_neg apart.2]
  rfl

theorem valueIn_course (place time : ℝ) (row : Fin geometry.dependent.length) :
    (geometry.constraint.component row).valueIn
        (Coordinate.course (environment place) (geometry.independent ++ geometry.dependent) time) =
      (place ^ 2 + time * output.velocityIn (environment place)) - (place + time) ^ 2 := by
  have apart : ((geometry.independent ++ geometry.dependent).map Coordinate.atom).Nodup := by decide
  refine valueIn_constraint ?_ ?_ row
  · rw [Coordinate.course_atom apart _ _ (by decide), place_eq, crank_velocity, mul_one]
    rfl
  · rw [Coordinate.course_atom apart _ _ (by decide), output_eq]
    rfl

theorem second (place : ℝ) (row : Fin geometry.dependent.length) :
    HasSecondDerivAt (fun time => (geometry.constraint.component row).valueIn
      (Coordinate.course (environment place) (geometry.independent ++ geometry.dependent) time))
      (-2) 0 := by
  simp only [valueIn_course]
  generalize output.velocityIn (environment place) = speed
  refine ⟨fun t => speed - 2 * (place + t), .of_forall fun t => ?_, ?_⟩
  · have linear : HasDerivAt (fun t : ℝ => place ^ 2 + t * speed) speed t := by
      simpa using ((hasDerivAt_id t).mul_const speed).const_add (place ^ 2)
    have square : HasDerivAt (fun t : ℝ => (place + t) ^ 2) (2 * (place + t)) t := by
      simpa using ((hasDerivAt_id t).const_add place).fun_pow 2
    exact linear.sub square
  · simpa using (((hasDerivAt_id (0 : ℝ)).const_add place).const_mul 2).const_sub speed

theorem smooth_constraint {assignment : Assignment} {place value : ℝ} (positive : 0 < place)
    (driving : assignment crank.atom = some place)
    (following : assignment output.atom = some value) :
    geometry.constraint.SmoothAt 2 assignment := by
  have base : (atom crank.atom : Expr RealNumber).valueIn assignment = place :=
    ((takes_atom _ _).mpr driving).valueIn_eq
  have apart : (atom crank.atom : Expr RealNumber).valueIn assignment ≠
      (zero : Expr RealNumber).valueIn assignment := by
    rw [base, takes_zero.valueIn_eq]
    exact positive.ne'
  have differs : ¬Relation.equal.Holds ((atom crank.atom : Expr RealNumber).valueIn assignment)
      ((zero : Expr RealNumber).valueIn assignment) := apart
  have guarded : (Guarded.guard crank.atom square).SmoothAt 2 assignment := by
    refine .cond (.atom driving) (.num _) apart ?_
    rw [if_neg differs]
    exact .pow (.atom driving) (.num _) (.inl (base ▸ positive))
  rw [constraint_eq]
  refine List.forall_mem_singleton.mpr (.add ?_)
  rw [List.forall_mem_cons, List.forall_mem_singleton]
  refine ⟨.atom following, .mul ?_⟩
  rw [List.forall_mem_cons, List.forall_mem_singleton]
  exact ⟨.num _, guarded⟩

theorem rising : zero ≠ square.derivative crank.atom := by
  intro same
  have here : vary (fun _ => none) crank.atom 1 crank.atom = some 1 := Function.update_self ..
  have base : (atom crank.atom : Expr RealNumber).valueIn (vary (fun _ => none) crank.atom 1) = 1 :=
    ((takes_atom _ _).mpr here).valueIn_eq
  have smooth : square.SmoothAt 1 (vary (fun _ => none) crank.atom 1) :=
    .pow (.atom here) (.num _) (.inl (base ▸ one_pos))
  have slope := (smooth.partial here).2
  rw [← same, takes_zero.valueIn_eq] at slope
  have value (t : ℝ) :
      square.valueIn (vary (vary (fun _ => none) crank.atom 1) crank.atom t) = t ^ 2 :=
    (takes_square (Function.update_self ..)).valueIn_eq
  simp only [value] at slope
  have two := slope.unique (hasDerivAt_pow 2 1)
  norm_num at two

theorem still : zero = square.derivative output.atom := by
  have apart : ¬crank.atom = output.atom := by decide
  rw [derivative_eq]
  simp only [square, rate, children, List.map_cons, List.map_nil, derivative_atom, if_neg apart,
    derivative_num, powerRule, isZero_zero, if_true]

theorem holds_driving {jacobian : Tensor RealNumber}
    (made : geometry.constraint.jacobian (geometry.independent.map Coordinate.atom) =
      .ok jacobian) : jacobian.Holds (environment 0).read (drivingMatrix 0) := by
  rw [map_eq_ofFn] at made
  refine Tensor.holds_jacobian made rfl fun row column => ?_
  rw [only row, only column]
  change ((atom output.atom - Guarded.guard crank.atom square).derivative crank.atom).Takes _
    (-(0 + 0))
  rw [derivative_driving (by decide) rising]
  refine takes_mul.mpr (multipliesTo_cons.mpr ⟨-1, 0, (takes_num _ _).mpr rfl, ?_, by simp⟩)
  exact multipliesTo_singleton.mpr (takes_guard (place_eq 0))

theorem holds_following {jacobian : Tensor RealNumber}
    (made : geometry.constraint.jacobian (geometry.dependent.map Coordinate.atom) = .ok jacobian) :
    jacobian.Holds (environment 0).read followingMatrix := by
  rw [map_eq_ofFn] at made
  refine Tensor.holds_jacobian made rfl fun row column => ?_
  rw [only row, only column, followingMatrix, Matrix.one_apply_eq]
  change ((atom output.atom - Guarded.guard crank.atom square).derivative output.atom).Takes _ 1
  rw [derivative_following still]
  exact takes_one

theorem holds_drift_zero {drift : Tensor RealNumber} (made : geometry.drift = .ok drift)
    (velocities : ∀ coordinate ∈ geometry.independent ++ geometry.dependent,
      (environment 0 coordinate.velocity 0).isSome) :
    drift.Holds (environment 0).read (0 : Matrix (Fin 1) (Fin 1) ℝ) := by
  simp only [Geometry.drift, bind_eq_ok] at made
  obtain ⟨jacobian, first, rate, multiplied, rateJacobian, again, final⟩ := made
  have entries : jacobian = ⟨Shape.ofDimensions 1 2,
      [(atom output.atom - Guarded.guard crank.atom square : Expr RealNumber).derivative crank.atom,
        (atom output.atom - Guarded.guard crank.atom square : Expr RealNumber).derivative
          output.atom]⟩ := (Except.ok.inj first).symm
  rw [derivative_driving (by decide) rising, derivative_following still] at entries
  subst entries
  obtain rfl : rate = .ofExpr (sum
      [mul [num minus, Guarded.guard crank.atom (square.derivative crank.atom)] *
        atom (.whole crank.velocity), one * atom (.whole output.velocity)]) :=
    (Except.ok.inj multiplied).symm
  rw [rate_eq] at again
  have rateSlopes : rateJacobian.Holds (environment 0).read
      (0 : Matrix (Fin 1) (Fin (geometry.independent ++ geometry.dependent).length) ℝ) := by
    rw [map_eq_ofFn] at again
    refine Tensor.holds_jacobian again rfl fun row column => ?_
    rw [only row]
    have apart : ∀ column : Fin ([crank] ++ [output]).length,
        Atom.whole crank.velocity ≠ ([crank] ++ [output])[column].atom ∧
          Atom.whole output.velocity ≠ ([crank] ++ [output])[column].atom := by
      decide
    have turning : (environment 0).read (.whole crank.velocity) =
        some (driven 0 crank.velocity 0) := environment_input 0 (by decide)
    exact takes_derivative_rate (place_eq 0) turning (apart column).1 (apart column).2
  have rates := holds_ofRates (κ := RealNumber) Coordinate.velocity velocities
  have product := rateSlopes.matmul rates final
  rw [Matrix.zero_mul] at product
  exact product

end GuardedSquare

end Loop

end Mechanism
