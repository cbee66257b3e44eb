import Mechanism.Proofs.Loop.Values
import Mechanism.Proofs.Model.Chaining
import Mechanism.Proofs.Model.Generation

/-!
The equations of motion in the independent coordinates. Each acceleration is an affine function of
the independent ones, through the loops that determine the coordinate, and the reduced equations are
the projection of the full ones along its linear part.
-/

namespace Mechanism

open Matrix

/-! ### Transposed tensors -/

namespace Tensor

variable {κ : Type} [Scalar κ] [Exact κ] {assignment : Assignment} {m n : Nat}

theorem Holds.transpose {tensor : Tensor κ} {matrix : Matrix (Fin m) (Fin n) ℝ}
    (holds : tensor.Holds assignment matrix) : tensor.transpose.Holds assignment matrixᵀ := by
  have rows : tensor.rows = m := by rw [Tensor.rows, holds.shape_eq, Shape.rows_ofDimensions]
  have columns : tensor.columns = n := by
    rw [Tensor.columns, holds.shape_eq, Shape.columns_ofDimensions]
  refine ⟨?_, ?_, fun row column => ?_⟩
  · rw [Tensor.transpose, shape_build, rows, columns]
  · rw [Tensor.transpose, length_build, rows, columns]
  · rw [Tensor.transpose, part_build _ (columns ▸ row.isLt) (rows ▸ column.isLt)]
    exact holds.takes column row

theorem Holds.takes_entry {environment : Environment} {symbol : Symbol}
    {matrix : Matrix (Fin m) (Fin n) ℝ}
    (holds : (ofSymbol symbol : Tensor κ).Holds environment.read matrix) {expr : Expr κ}
    (row : Fin m) (column : Fin n) (found : symbol.entry row column = .ok expr) :
    expr.Takes environment.read (matrix row column) := by
  have shape : symbol.shape = Shape.ofDimensions m n := holds.shape_eq
  obtain ⟨atom, place, same, position⟩ := getElem_ofSymbol (κ := κ) shape row column
  have takes := holds.takes row column
  rw [Option.some.inj ((holds.getElem row column).symm.trans place), Expr.takes_atom,
    Environment.read, same, position] at takes
  unfold Symbol.entry at found
  split at found
  · rename_i inside
    cases found
    rw [Expr.takes_atom, Environment.read, Symbol.symbol_atomAt, Symbol.flatIndex_atomAt inside,
      shape, Shape.flatIndex, Shape.columns_ofDimensions, takes]
  · cases found

theorem Holds.takes_entryAt {environment : Environment} {symbol : Symbol} {values : Fin m → ℝ}
    (holds : (ofSymbol symbol : Tensor κ).Holds environment.read (replicateCol (Fin 1) values))
    {expr : Expr κ} (row : Fin m) (found : symbol.entryAt row = .ok expr) :
    expr.Takes environment.read (values row) := by
  have shape : symbol.shape = Shape.ofDimensions m 1 := holds.shape_eq
  have place : symbol.shape.place row = (row.val, (0 : Fin 1).val) := by
    rw [shape, Shape.place, Shape.columns_ofDimensions]
    simp [Nat.mod_one]
  rw [Symbol.entryAt, place] at found
  exact holds.takes_entry row 0 found

end Tensor

namespace Model

open Mechanism.Model.Action

variable {κ : Type} [Scalar κ] [Exact κ] {model : Model κ} {environment : Environment}
  {independent : List Coordinate}

/-! ### Accelerations -/

/-- The acceleration of a coordinate as a function of the accelerations of the coordinates that no
loop determines: what the loop makes of the accelerations of its own drivers, and so on. -/
inductive Accelerates (model : Model κ) (environment : Environment) :
    Coordinate → ((Coordinate → ℝ) → ℝ) → Prop where
  | free {coordinate : Coordinate} (free : model.closedBy.find? coordinate.name = none) :
      Accelerates model environment coordinate fun given => given coordinate
  | closed {coordinate : Coordinate} {loop : String} {artifacts : Loop.Artifacts κ}
      (closed : model.closedBy.find? coordinate.name = some loop)
      (known : model.artifacts? loop = some artifacts)
      (place : Fin artifacts.dependent.length)
      (found : (artifacts.dependent.findIdx? fun other => other = coordinate) = some place.val)
      {ratios : Matrix (Fin artifacts.dependent.length) (Fin artifacts.independent.length) ℝ}
      {offsets : Fin artifacts.dependent.length → ℝ}
      (bvu : (Tensor.ofSymbol artifacts.bvu : Tensor κ).Holds environment.read ratios)
      (bPrime : (Tensor.ofSymbol artifacts.bPrime : Tensor κ).Holds environment.read
        (replicateCol (Fin 1) offsets))
      {driven : Fin artifacts.independent.length → (Coordinate → ℝ) → ℝ}
      (each : ∀ index, Accelerates model environment artifacts.independent[index] (driven index)) :
      Accelerates model environment coordinate fun given =>
        (ratios *ᵥ (fun index => driven index given) + offsets) place

/-- The row has a value: the given function of the independent accelerations. -/
structure ClosureRow.Yields (environment : Environment) (independent : List Coordinate)
    (row : ClosureRow κ) (coefficients : Fin independent.length → ℝ) (offset : ℝ) : Prop where
  length_eq : row.coefficients.length = independent.length
  takes : ∀ index : Fin independent.length, ∃ expr, row.coefficients[index.val]? = some expr ∧
    expr.Takes environment.read (coefficients index)
  offset : row.offset.Takes environment.read offset

namespace ClosureRow.Yields

variable {row driver : ClosureRow κ} {coefficients more : Fin independent.length → ℝ} {offset extra : ℝ}

theorem unit (environment : Environment) (independent : List Coordinate)
    (place : Fin independent.length) :
    (ClosureRow.unit independent.length place : ClosureRow κ).Yields environment independent
      (Pi.single place 1) 0 := by
  refine ⟨by simp [ClosureRow.unit], fun index => ?_, Expr.takes_zero⟩
  rw [ClosureRow.unit, List.getElem?_set]
  by_cases here : place = index
  · subst here
    exact ⟨.one, by simp, by rw [Pi.single_eq_same]; exact Expr.takes_one⟩
  · refine ⟨.zero, ?_, ?_⟩
    · rw [if_neg (fun same => here (Fin.ext same)), List.getElem?_replicate, if_pos index.isLt]
    · rw [Pi.single_eq_of_ne (Ne.symm here)]
      exact Expr.takes_zero

theorem start (independent : List Coordinate) {expr : Expr κ}
    (takes : expr.Takes environment.read offset) :
    (ClosureRow.start independent.length expr).Yields environment independent 0 offset := by
  refine ⟨List.length_replicate, fun index => ⟨.zero, ?_, Expr.takes_zero⟩, takes⟩
  rw [ClosureRow.start, List.getElem?_replicate, if_pos index.isLt]

theorem addMultiple {ratio : Expr κ} {factor : ℝ}
    (yields : row.Yields environment independent coefficients offset)
    (takes : ratio.Takes environment.read factor)
    (driven : driver.Yields environment independent more extra) :
    (row.addMultiple ratio driver).Yields environment independent (coefficients + factor • more)
      (offset + factor * extra) := by
  refine ⟨?_, fun index => ?_, Expr.takes_plus yields.offset (Expr.takes_times takes driven.offset)⟩
  · rw [ClosureRow.addMultiple, List.length_zipWith, yields.length_eq, driven.length_eq, min_self]
  · obtain ⟨entry, found, value⟩ := yields.takes index
    obtain ⟨other, there, known⟩ := driven.takes index
    refine ⟨_, by rw [ClosureRow.addMultiple, List.getElem?_zipWith, found, there], ?_⟩
    exact Expr.takes_plus value (Expr.takes_times takes known)

theorem combine {count : Nat} {ratios : Fin count → Expr κ} {drivers : Fin count → ClosureRow κ}
    {factors : Fin count → ℝ} {parts : Fin count → Fin independent.length → ℝ}
    {extras : Fin count → ℝ} (yields : row.Yields environment independent coefficients offset)
    (takes : ∀ index, (ratios index).Takes environment.read (factors index))
    (each : ∀ index, (drivers index).Yields environment independent (parts index) (extras index)) :
    (row.combine (List.ofFn ratios) (List.ofFn drivers)).Yields environment independent
      (coefficients + ∑ index, factors index • parts index)
      (offset + ∑ index, factors index * extras index) := by
  induction count generalizing row coefficients offset with
  | zero => simpa [ClosureRow.combine] using yields
  | succ count ih =>
      have rest := ih (yields.addMultiple (takes 0) (each 0)) (fun index => takes index.succ)
        fun index => each index.succ
      rw [List.ofFn_succ, List.ofFn_succ, Fin.sum_univ_succ, Fin.sum_univ_succ, ← add_assoc,
        ← add_assoc]
      exact rest

end ClosureRow.Yields

section

variable {simplifier : Simplifier κ} {session : Session κ}

theorem affine_combination {count width : Nat} (factors : Fin count → ℝ)
    (parts : Fin count → Fin width → ℝ) (extras : Fin count → ℝ) (offset : ℝ) (given : Fin width → ℝ) :
    (factors ⬝ᵥ fun index => parts index ⬝ᵥ given + extras index) + offset =
      ((0 + ∑ index, factors index • parts index) ⬝ᵥ given) +
        (offset + ∑ index, factors index * extras index) := by
  have split : (factors ⬝ᵥ fun index => parts index ⬝ᵥ given + extras index) =
      ∑ index, factors index * (parts index ⬝ᵥ given) + ∑ index, factors index * extras index := by
    simp only [dotProduct, mul_add, Finset.sum_add_distrib]
  have joined : (∑ index, factors index • parts index) ⬝ᵥ given =
      ∑ index, factors index * (parts index ⬝ᵥ given) := by
    simp only [sum_dotProduct, smul_dotProduct, smul_eq_mul]
  rw [split, zero_add, joined]
  ring

theorem Accelerates.yields {coordinate : Coordinate} {acceleration : (Coordinate → ℝ) → ℝ}
    (accelerates : session.model.Accelerates environment coordinate acceleration)
    (fit : Fit simplifier session) (layered : session.model.Layered)
    (listed : ∀ other ∈ independent, session.model.coordinates.find? other.name = some other)
    (known : session.model.coordinates.find? coordinate.name = some coordinate) {fuel : Nat}
    {row : ClosureRow κ} (made : session.model.closureRow independent fuel coordinate = .ok row) :
    ∃ coefficients offset, row.Yields environment independent coefficients offset ∧
      ∀ given, acceleration given =
        (coefficients ⬝ᵥ fun index => given independent[index]) + offset := by
  induction accelerates generalizing fuel row with
  | @free coordinate free =>
      rcases closureRow_eq_ok made with ⟨_, place, found, rfl⟩ | ⟨_, _, _, _, closed, _⟩
      · obtain ⟨bound, same, _⟩ := List.findIdx?_eq_some_iff_getElem.mp found
        have here : independent[place] = coordinate :=
          fit.eq_of_position (listed _ (List.getElem_mem bound)) known (of_decide_eq_true same)
        refine ⟨_, _, .unit environment independent ⟨place, bound⟩, fun given => ?_⟩
        simp [here]
      · rw [free] at closed
        cases closed
  | @closed coordinate loop artifacts closed registered place found ratios offsets bvu bPrime driven
      each ih =>
      rcases closureRow_eq_ok made with
        ⟨free, _⟩ | ⟨owner, others, index, less, owned, again, there, rfl, follows⟩
      · rw [closed] at free
        cases free
      rw [closed] at owned
      cases owned
      rw [registered] at again
      cases again
      rw [found] at there
      cases there
      obtain ⟨offset, entries, rows, start, ratioOf, rowOf, rfl⟩ := follows
      obtain ⟨entryCount, entryAt⟩ := List.forall₂_iff_get.mp ratioOf
      obtain ⟨rowCount, rowAt⟩ := List.forall₂_iff_get.mp rowOf
      rw [List.length_range] at entryCount
      have driverRow (index : Fin artifacts.independent.length) :=
        ih index (layered.drivers loop artifacts registered _ (List.getElem_mem index.isLt)).known
          (rowAt index index.isLt (rowCount ▸ index.isLt))
      choose parts extras driving driven_eq using driverRow
      have entriesOf : entries = List.ofFn fun index : Fin artifacts.independent.length =>
          entries.get ⟨index, entryCount ▸ index.isLt⟩ :=
        List.ext_getElem (by simp [entryCount]) (by simp)
      have rowsOf : rows = List.ofFn fun index : Fin artifacts.independent.length =>
          rows.get ⟨index, rowCount ▸ index.isLt⟩ :=
        List.ext_getElem (by simp [rowCount]) (by simp)
      have takes (index : Fin artifacts.independent.length) :
          (entries.get ⟨index, entryCount ▸ index.isLt⟩).Takes environment.read
            (ratios place index) := by
        have found := entryAt index (by simp) (entryCount ▸ index.isLt)
        simp only [List.get_eq_getElem, List.getElem_range] at found
        exact bvu.takes_entry place index found
      have begun := ClosureRow.Yields.start independent (bPrime.takes_entryAt place start)
      rw [entriesOf, rowsOf]
      refine ⟨_, _, begun.combine takes driving, fun given => ?_⟩
      change (ratios place ⬝ᵥ fun index => driven index given) + offsets place = _
      rw [funext fun index => driven_eq index given]
      exact affine_combination _ _ _ _ _

/-- All loops relate rates by numbers. -/
def Rated (model : Model κ) (environment : Environment) : Prop :=
  ∀ loop artifacts, model.artifacts? loop = some artifacts →
    ∃ (ratios : Matrix (Fin artifacts.dependent.length) (Fin artifacts.independent.length) ℝ)
      (offsets : Fin artifacts.dependent.length → ℝ),
      (Tensor.ofSymbol artifacts.bvu : Tensor κ).Holds environment.read ratios ∧
        (Tensor.ofSymbol artifacts.bPrime : Tensor κ).Holds environment.read
          (replicateCol (Fin 1) offsets)

theorem exists_accelerates (rated : model.Rated environment) {fuel : Nat} {coordinate : Coordinate}
    {row : ClosureRow κ} (made : model.closureRow independent fuel coordinate = .ok row) :
    ∃ acceleration, model.Accelerates environment coordinate acceleration := by
  induction fuel generalizing coordinate row with
  | zero =>
      rcases closureRow_eq_ok made with ⟨free, _⟩ | ⟨_, _, _, _, _, _, _, none, _⟩
      · exact ⟨_, .free free⟩
      · cases none
  | succ fuel ih =>
      rcases closureRow_eq_ok made with
        ⟨free, _⟩ | ⟨loop, artifacts, place, less, closed, known, found, same, follows⟩
      · exact ⟨_, .free free⟩
      obtain rfl : fuel = less := Nat.succ.inj same
      obtain ⟨_, _, _, _, _, rowOf, _⟩ := follows
      obtain ⟨count, rowAt⟩ := List.forall₂_iff_get.mp rowOf
      have driven (index : Fin artifacts.independent.length) :=
        ih (rowAt index index.isLt (count ▸ index.isLt))
      choose accelerations each using driven
      obtain ⟨ratios, offsets, bvu, bPrime⟩ := rated loop artifacts known
      obtain ⟨bound, _⟩ := List.findIdx?_eq_some_iff_getElem.mp found
      exact ⟨_, .closed closed known ⟨place, bound⟩ found bvu bPrime each⟩

end

/-! ### The map from the independent accelerations -/

theorem holds_offsets {rows : List (ClosureRow κ)} {count : Nat} (length : rows.length = count)
    {offsets : Fin count → ℝ} {column : Tensor κ}
    (takes : ∀ index : Fin count, ∃ row, rows[index.val]? = some row ∧
      row.offset.Takes environment.read (offsets index))
    (made : Tensor.matrix rows.length 1 (rows.map ClosureRow.offset) = .ok column) :
    column.Holds environment.read (replicateCol (Fin 1) offsets) := by
  subst length
  unfold Tensor.matrix at made
  split at made
  · cases made
    refine Tensor.holds_of_getElem (by simp) fun row place => ?_
    obtain ⟨found, at_, value⟩ := takes row
    refine ⟨found.offset, ?_, value⟩
    rw [Fin.fin_one_eq_zero place, Fin.val_zero, mul_one, add_zero, List.getElem?_map, at_]
    rfl
  · cases made

theorem holds_coefficients {rows : List (ClosureRow κ)} {count : Nat} (length : rows.length = count)
    {coefficients : Matrix (Fin count) (Fin independent.length) ℝ} {offsets : Fin count → ℝ}
    {jacobian : Tensor κ}
    (yields : ∀ index : Fin count, ∃ row, rows[index.val]? = some row ∧
      row.Yields environment independent (coefficients index) (offsets index))
    (made : Tensor.matrix rows.length independent.length (rows.flatMap ClosureRow.coefficients) =
      .ok jacobian) : jacobian.Holds environment.read coefficients := by
  subst length
  unfold Tensor.matrix at made
  split at made
  · rename_i entries
    cases made
    have widths : ∀ row ∈ rows, row.coefficients.length = independent.length := by
      intro row member
      obtain ⟨place, bound, rfl⟩ := List.mem_iff_getElem.mp member
      obtain ⟨found, at_, yielded⟩ := yields ⟨place, bound⟩
      rw [List.getElem?_eq_getElem bound, Option.some.injEq] at at_
      exact at_ ▸ yielded.length_eq
    refine Tensor.holds_of_getElem entries fun row column => ?_
    obtain ⟨found, at_, yielded⟩ := yields row
    rw [Tensor.getElem?_flatMap widths column.isLt, at_]
    exact yielded.takes column
  · cases made

theorem accelerationMap_holds {simplifier : Simplifier κ} {session : Session κ}
    (fit : Fit simplifier session) (layered : session.model.Layered) {coordinates : List Coordinate}
    (known : ∀ other ∈ coordinates, session.model.coordinates.find? other.name = some other)
    (listed : ∀ other ∈ independent, session.model.coordinates.find? other.name = some other)
    {jacobian offset : Tensor κ}
    (made : session.model.accelerationMap coordinates independent = .ok (jacobian, offset))
    {accelerations : Fin coordinates.length → (Coordinate → ℝ) → ℝ}
    (accelerates : ∀ index : Fin coordinates.length,
      session.model.Accelerates environment coordinates[index] (accelerations index)) :
    ∃ (linear : Matrix (Fin coordinates.length) (Fin independent.length) ℝ)
      (constant : Fin coordinates.length → ℝ),
      jacobian.Holds environment.read linear ∧
        offset.Holds environment.read (replicateCol (Fin 1) constant) ∧
          ∀ given, (fun index => accelerations index given) =
            linear *ᵥ (fun index => given independent[index]) + constant := by
  obtain ⟨rows, composed, first, second⟩ := accelerationMap_eq_ok made
  obtain ⟨count, rowAt⟩ := List.forall₂_iff_get.mp composed
  have yields (index : Fin coordinates.length) :=
    (accelerates index).yields fit layered listed (known _ (List.getElem_mem index.isLt))
      (rowAt index index.isLt (count ▸ index.isLt))
  choose linear constant yields affine using yields
  have here (index : Fin coordinates.length) :
      rows[index.val]? = some (rows.get ⟨index, count ▸ index.isLt⟩) :=
    List.getElem?_eq_getElem _
  refine ⟨linear, constant, ?_, ?_, fun given => funext fun index => affine index given⟩
  · exact holds_coefficients count.symm (fun index => ⟨_, here index, yields index⟩) first
  · exact holds_offsets count.symm (fun index => ⟨_, here index, (yields index).offset⟩) second

/-! ### The projection -/

/-- The values of equations of motion. -/
structure Motion.Holds {count : Nat} (assignment : Assignment) (motion : Motion κ)
    (mass : Matrix (Fin count) (Fin count) ℝ) (bias forces : Fin count → ℝ) : Prop where
  mass : motion.mass.Holds assignment mass
  bias : motion.bias.Holds assignment (replicateCol (Fin 1) bias)
  forces : motion.forces.Holds assignment (replicateCol (Fin 1) forces)

theorem define_carries {simplifier : Simplifier κ} {session later : Session κ} {name : String}
    {symbol : Symbol} {value : Tensor κ} {categories : CategorySet}
    (regular : value.Regular session.supply.next) (tame : simplifier.Tame)
    (fit : Fit simplifier session)
    (defined : (define name value categories).perform session = (.ok symbol, later)) :
    later.model.graph.Carries symbol value ∧
      ∀ other content, session.model.graph.Carries other content →
        content.Regular session.supply.next → later.model.graph.Carries other content := by
  obtain ⟨work, performed, rfl⟩ := Action.onGraph_eq_ok.mp defined
  have lawful := (fit.graph.fit tame).valid.toLawful
  rw [Graph.define, Graph.Action.perform_bind, Graph.Action.perform_freshSymbol] at performed
  simp only at performed
  have same : ((Action.graphSession session).supply.fresh name value.shape).1 = symbol := by
    rw [Graph.perform_register] at performed
    split at performed <;> cases performed
    rfl
  subst same
  obtain ⟨added, _⟩ := Graph.addEquation_of_register performed
  have outside {content : Tensor κ} (reads : content.Regular session.supply.next) :
      ((Action.graphSession session).supply.fresh name value.shape).1 ∉ content.symbols := by
    intro member
    obtain ⟨atom, among, same⟩ := Tensor.mem_symbols.mp member
    have issued := (reads.atoms among).issued
    rw [same] at issued
    exact lt_irrefl _ issued
  have fresh : session.model.graph.nodeOf?
      ((Action.graphSession session).supply.fresh name value.shape).1 = none := by
    rw [Option.eq_none_iff_forall_ne_some]
    intro node found
    exact lt_irrefl _ (lawful.defined_issued (Graph.isDefined_iff.mpr ⟨node, found⟩))
  refine ⟨lawful.carries regular (outside regular) (fun node found => ?_) added, ?_⟩
  · cases fresh.symm.trans found
  · intro other content carries reads
    refine carries.kept (fun node found => ?_) fun read member => ?_
    · exact Graph.nodeOf?_addEquation_kept lawful found added
    · refine Graph.find?_aliases_addEquation ?_ added
      rintro rfl
      exact outside reads member

theorem Motion.Holds.reduce {count width : Nat} {assignment : Assignment} {motion reduced : Motion κ}
    {mass : Matrix (Fin count) (Fin count) ℝ} {bias forces : Fin count → ℝ}
    (holds : motion.Holds assignment mass bias forces) {jacobian offset : Tensor κ}
    {linear : Matrix (Fin count) (Fin width) ℝ} {constant : Fin count → ℝ}
    (first : jacobian.Holds assignment linear)
    (second : offset.Holds assignment (replicateCol (Fin 1) constant))
    (made : motion.reduce jacobian offset = .ok reduced) :
    reduced.Holds assignment (linearᵀ * (mass * linear)) (linearᵀ *ᵥ (mass *ᵥ constant + bias))
      (linearᵀ *ᵥ forces) := by
  simp only [Motion.reduce, bind_eq_ok] at made
  obtain ⟨moved, one, massStar, two, shifted, three, sum, four, biasStar, five, forcesStar, six,
    same⟩ := made
  cases same
  have column := (holds.mass.matmul second three).add holds.bias four
  rw [← replicateCol_mulVec, ← replicateCol_add] at column
  refine ⟨first.transpose.matmul (holds.mass.matmul first one) two, ?_, ?_⟩
  · rw [replicateCol_mulVec]
    exact first.transpose.matmul column five
  · rw [replicateCol_mulVec]
    exact first.transpose.matmul holds.forces six

omit [Exact κ] in
theorem Motion.reduce_succeeds {count width : Nat} {motion : Motion κ} {jacobian offset : Tensor κ}
    (mass : motion.mass.Sized count count) (bias : motion.bias.Sized count 1)
    (forces : motion.forces.Sized count 1) (first : jacobian.Sized count width)
    (second : offset.Sized count 1) : ∃ reduced, motion.reduce jacobian offset = .ok reduced := by
  obtain ⟨moved, one, movedSized⟩ := mass.matmul first
  obtain ⟨massStar, two, _⟩ := first.transpose.matmul movedSized
  obtain ⟨shifted, three, shiftedSized⟩ := mass.matmul second
  obtain ⟨sum, four, sumSized⟩ := shiftedSized.add bias
  obtain ⟨biasStar, five, _⟩ := first.transpose.matmul sumSized
  obtain ⟨forcesStar, six, _⟩ := first.transpose.matmul forces
  refine ⟨⟨massStar, biasStar, forcesStar⟩, ?_⟩
  simp only [Motion.reduce, one, two, three, four, five, six, bind, Except.bind, pure, Except.pure]

omit [Exact κ] in
theorem known_of_checkListed {coordinates : List Coordinate} {seen : List String}
    (listed : model.checkListed seen coordinates = .ok ()) :
    ∀ coordinate ∈ coordinates, model.coordinates.find? coordinate.name = some coordinate := by
  induction coordinates generalizing seen with
  | nil => exact List.forall_mem_nil _
  | cons head tail ih =>
      unfold checkListed at listed
      split at listed
      · cases listed
      rename_i known
      split at listed
      · cases listed
      · exact List.forall_mem_cons.mpr ⟨not_not.mp known, ih listed⟩

theorem projected {count width : Nat} (mass : Matrix (Fin count) (Fin count) ℝ)
    (bias forces constant : Fin count → ℝ) (linear : Matrix (Fin count) (Fin width) ℝ)
    (given : Fin width → ℝ) :
    linearᵀ *ᵥ (mass *ᵥ (linear *ᵥ given + constant) + bias - forces) =
      (linearᵀ * (mass * linear)) *ᵥ given + linearᵀ *ᵥ (mass *ᵥ constant + bias) -
        linearᵀ *ᵥ forces := by
  rw [mulVec_sub, mulVec_add mass, mulVec_mulVec, add_assoc, mulVec_add linearᵀ, mulVec_mulVec]

/-- The reduced equations that the graph defines are the full ones along the linear part of the
accelerations, whatever the accelerations of the independent coordinates are. -/
def Dynamics.Projects {count : Nat} (dynamics : Dynamics) (graph : Graph κ)
    (environment : Environment) (accelerations : Fin count → (Coordinate → ℝ) → ℝ)
    (mass : Matrix (Fin count) (Fin count) ℝ) (bias forces : Fin count → ℝ) : Prop :=
  ∃ (linear : Matrix (Fin count) (Fin dynamics.independent.length) ℝ) (constant : Fin count → ℝ)
    (massStar : Matrix (Fin dynamics.independent.length) (Fin dynamics.independent.length) ℝ)
    (biasStar forcesStar : Fin dynamics.independent.length → ℝ),
    graph.Yields environment dynamics.mass massStar ∧
    graph.Yields environment dynamics.bias (replicateCol (Fin 1) biasStar) ∧
    graph.Yields environment dynamics.forces (replicateCol (Fin 1) forcesStar) ∧
    ∀ given : Coordinate → ℝ,
      let driven := fun index : Fin dynamics.independent.length => given dynamics.independent[index]
      let followed := fun index => accelerations index given
      followed = linear *ᵥ driven + constant ∧
        linearᵀ *ᵥ (mass *ᵥ followed + bias - forces) = massStar *ᵥ driven + biasStar - forcesStar

section

variable {simplifier : Simplifier κ} {session later : Session κ} {coordinates : List Coordinate}
  {motion : Motion κ} {dynamics : Dynamics}

omit [Exact κ] in
theorem define_succeeds (tame : simplifier.Tame) (fit : Fit simplifier session) (name : String)
    (value : Tensor κ) {categories : CategorySet} (nonempty : categories.isEmpty = false) :
    ∃ symbol later, (define name value categories).perform session = (.ok symbol, later) := by
  have room : Loop.Room (graphSession session) [] :=
    Loop.room_of_valid (fit.graph.fit tame).valid (List.forall_mem_nil _) (List.forall_mem_nil _)
  have vacant : session.model.graph.Vacant
      ((graphSession session).supply.fresh name value.shape).1 := room.fresh _ le_rfl
  obtain ⟨graph, added⟩ : ∃ graph, Graph.addEquation name
      ((graphSession session).supply.fresh name value.shape).1 value categories
        (graphSession session).graph = .ok graph := by
    obtain ⟨node, _, _, added⟩ := Graph.addEquation_vacant nonempty rfl vacant
    exact ⟨_, added⟩
  have performed : ∃ symbol work,
      (Graph.define name value categories).perform (graphSession session) = (.ok symbol, work) := by
    rw [Graph.define, Graph.Action.perform_bind, Graph.Action.perform_freshSymbol]
    simp only
    rw [Graph.perform_register]
    simp only [added]
    exact ⟨_, _, rfl⟩
  obtain ⟨symbol, work, performed⟩ := performed
  exact ⟨symbol, _, onGraph_eq_ok.mpr ⟨work, performed, rfl⟩⟩

omit [Exact κ] in
theorem tidy_define {name : String} {value : Tensor κ} {categories : CategorySet} {symbol : Symbol}
    (defined : (define name value categories).perform session = (.ok symbol, later))
    (tidy : session.model.graph.Tidy) : later.model.graph.Tidy := by
  obtain ⟨work, performed, rfl⟩ := onGraph_eq_ok.mp defined
  rw [Graph.define, Graph.Action.perform_bind, Graph.Action.perform_freshSymbol] at performed
  simp only at performed
  rw [Graph.perform_register] at performed
  split at performed
  · rename_i graph added
    cases performed
    exact tidy.addEquation added
  · cases performed

omit [Exact κ] in
theorem reduceDynamics_succeeds (tame : simplifier.Tame) (fit : Fit simplifier session)
    {reduced : Motion κ} (regular : motion.Regular session.supply.next)
    {independent : List Coordinate} (tidy : session.model.graph.Tidy)
    (made : session.model.reducedMotion coordinates motion = .ok (independent, reduced)) :
    ∃ dynamics later, (reduceDynamics coordinates motion).perform session = (.ok dynamics, later) ∧
      dynamics.independent = independent ∧ later.model.graph.Tidy := by
  have reads := fit.reducedMotion regular made
  have nonempty : (CategorySet.only .variable).isEmpty = false := by decide
  obtain ⟨mass, first, massDefined⟩ := define_succeeds tame fit "M_star" reduced.mass nonempty
  obtain ⟨_, kept, firstFit⟩ := define_eq_ok reads.mass tame fit massDefined
  have firstLe : session.supply.next ≤ first.supply.next := kept.supply_le tame fit.graph
  obtain ⟨bias, second, biasDefined⟩ := define_succeeds tame firstFit "h_star" reduced.bias nonempty
  obtain ⟨_, _, secondFit⟩ := define_eq_ok (reads.bias.mono firstLe) tame firstFit biasDefined
  obtain ⟨forces, third, forcesDefined⟩ :=
    define_succeeds tame secondFit "f_star" reduced.forces nonempty
  have tidied := tidy_define forcesDefined (tidy_define biasDefined (tidy_define massDefined tidy))
  let dynamics : Dynamics := ⟨independent, mass, bias, forces⟩
  refine ⟨dynamics, { third with model := { third.model with dynamics := some dynamics } }, ?_, rfl,
    tidied⟩
  rw [reduceDynamics, perform_bind, perform_getModel]
  simp only [made]
  rw [perform_bind, massDefined]
  simp only
  rw [perform_bind, biasDefined]
  simp only
  rw [perform_bind, forcesDefined]
  rfl

theorem reduceDynamics_carries (tame : simplifier.Tame) (fit : Fit simplifier session)
    (regular : motion.Regular session.supply.next)
    (reduces : (reduceDynamics coordinates motion).perform session = (.ok dynamics, later)) :
    ∃ reduced, session.model.reducedMotion coordinates motion = .ok (dynamics.independent, reduced) ∧
      later.model.graph.Carries dynamics.mass reduced.mass ∧
      later.model.graph.Carries dynamics.bias reduced.bias ∧
      later.model.graph.Carries dynamics.forces reduced.forces := by
  rw [reduceDynamics, Action.perform_bind, Action.perform_getModel] at reduces
  simp only at reduces
  split at reduces
  · cases reduces
  rename_i independent reduced accepted
  have reads := fit.reducedMotion regular accepted
  obtain ⟨mass, first, massDefined, rest⟩ := Action.bind_eq_ok.mp reduces
  obtain ⟨bias, second, biasDefined, rest⟩ := Action.bind_eq_ok.mp rest
  obtain ⟨forces, third, forcesDefined, rest⟩ := Action.bind_eq_ok.mp rest
  obtain ⟨massCarries, _⟩ := define_carries reads.mass tame fit massDefined
  obtain ⟨_, massKept, firstFit⟩ := define_eq_ok reads.mass tame fit massDefined
  have firstLe : session.supply.next ≤ first.supply.next := massKept.supply_le tame fit.graph
  have biasReads := reads.bias.mono firstLe
  obtain ⟨biasCarries, keptBySecond⟩ := define_carries biasReads tame firstFit biasDefined
  obtain ⟨_, biasKept, secondFit⟩ := define_eq_ok biasReads tame firstFit biasDefined
  have secondLe : first.supply.next ≤ second.supply.next := biasKept.supply_le tame firstFit.graph
  have forcesRead := reads.forces.mono (firstLe.trans secondLe)
  obtain ⟨forcesCarries, keptByThird⟩ := define_carries forcesRead tame secondFit forcesDefined
  rw [Action.perform_bind, Action.perform_modifyModel] at rest
  cases rest
  refine ⟨reduced, accepted, ?_, ?_, forcesCarries⟩
  · exact keptByThird _ _ (keptBySecond _ _ massCarries (reads.mass.mono firstLe))
      (reads.mass.mono (firstLe.trans secondLe))
  · exact keptByThird _ _ biasCarries (biasReads.mono secondLe)

/-- A reduction has followed the drivers of every listed coordinate to their end, each an input or a
coordinate that an earlier loop determines, and it has defined the projection of the equations of
motion along the accelerations that the loops give the listed coordinates. -/
theorem reduceDynamics_projects [ScalarText κ] {allowed : Command κ → Prop} (tame : simplifier.Tame)
    (reachable : ReachableBy allowed simplifier session)
    (regular : motion.Regular session.supply.next)
    (reduces : (reduceDynamics coordinates motion).perform session = (.ok dynamics, later)) :
    dynamics.independent =
        coordinates.filter (fun coordinate => !session.model.isClosed coordinate) ∧
      (∀ loop artifacts, session.model.artifacts? loop = some artifacts →
        ∀ driver ∈ artifacts.independent, session.model.Driver loop driver) ∧
      (∀ coordinate loop, session.model.closureRow dynamics.independent
        (session.model.closedBy.size + 1) coordinate ≠ .error (.dynamics (.notRegistered loop))) ∧
      ∀ environment : Environment, (∀ read, later.model.graph.Respects environment read) →
        (session.model.Rated environment → ∀ coordinate ∈ coordinates,
          ∃ acceleration, session.model.Accelerates environment coordinate acceleration) ∧
        ∀ (mass : Matrix (Fin coordinates.length) (Fin coordinates.length) ℝ)
          (bias forces : Fin coordinates.length → ℝ)
          (accelerations : Fin coordinates.length → (Coordinate → ℝ) → ℝ),
          motion.Holds environment.read mass bias forces →
          (∀ index : Fin coordinates.length, session.model.Accelerates environment
            coordinates[index] (accelerations index)) →
          dynamics.Projects later.model.graph environment accelerations mass bias forces := by
  have fit := reachable.fit tame
  have layered := reachable.layered tame
  obtain ⟨reduced, accepted, massCarries, biasCarries, forcesCarries⟩ :=
    reduceDynamics_carries tame fit regular reduces
  obtain ⟨_, listed, independent, jacobian, offset, composed, made⟩ := reducedMotion_eq_ok accepted
  have known := known_of_checkListed listed
  refine ⟨independent, layered.drivers, fun coordinate loop => layered.closureRow_ne _
    ((session.model.depth_le coordinate).trans (Nat.le_succ _)) loop, ?_⟩
  intro environment respects
  refine ⟨fun rated coordinate member => ?_, ?_⟩
  · obtain ⟨rows, each, _⟩ := accelerationMap_eq_ok composed
    obtain ⟨place, bound, rfl⟩ := List.mem_iff_getElem.mp member
    obtain ⟨count, rowAt⟩ := List.forall₂_iff_get.mp each
    exact exists_accelerates rated (rowAt place bound (count ▸ bound))
  · intro mass bias forces accelerations holds accelerates
    obtain ⟨linear, constant, first, second, affine⟩ := accelerationMap_holds fit layered known
      (fun other member => known other (List.mem_filter.mp (independent ▸ member)).1) composed
      accelerates
    have values := holds.reduce first second made
    refine ⟨linear, constant, _, _, _, massCarries.yields respects values.mass,
      biasCarries.yields respects values.bias, forcesCarries.yields respects values.forces,
      fun given => ⟨affine given, ?_⟩⟩
    rw [affine given]
    exact projected ..

end

namespace Coupled

noncomputable def motion : Motion RealNumber :=
  ⟨.ofSymbol ⟨1, "M", .matrix 2 2, .real⟩, .ofSymbol ⟨2, "h", .vector 2, .real⟩,
    .ofColumn [.atom u.atom, .atom v.atom]⟩

theorem regular_motion : motion.Regular closed.supply.next := by
  obtain ⟨_, _, _, _, _, _, _, _, _, _, le⟩ := closed_eq
  refine ⟨?_, ?_, rfl, fun _ member atom occurs => ?_⟩
  · exact Tensor.regular_ofSymbol ((by decide : 1 < 12).trans_le le)
  · exact Tensor.regular_ofSymbol ((by decide : 2 < 12).trans_le le)
  · obtain rfl | rfl := List.mem_pair.mp member <;> obtain rfl := List.mem_singleton.mp occurs
    · exact ⟨Nat.zero_lt_one, (by decide : 3 < 12).trans_le le⟩
    · exact ⟨Nat.zero_lt_one, (by decide : 6 < 12).trans_le le⟩

theorem closureRow_links {model : Model RealNumber} {independent : List Coordinate} {loop : String}
    {driver follower : Coordinate} {artifacts : Loop.Artifacts RealNumber} {fuel : Nat}
    {row : ClosureRow RealNumber} (links : Links loop driver follower artifacts)
    (closed : model.closedBy.find? follower.name = some loop)
    (known : model.artifacts? loop = some artifacts)
    (driven : model.closureRow independent fuel driver = .ok row) :
    ∃ ratio offset, model.closureRow independent (fuel + 1) follower =
      .ok ((ClosureRow.start independent.length offset).addMultiple ratio row) := by
  have place : ([follower].findIdx? fun other => other = follower) = some 0 := by simp
  obtain ⟨offset, first⟩ : ∃ offset : Expr RealNumber, artifacts.bPrime.entryAt 0 = .ok offset := by
    unfold Symbol.entryAt Symbol.entry
    rw [links.bPrime.2]
    exact ⟨_, rfl⟩
  obtain ⟨ratio, second⟩ : ∃ ratio : Expr RealNumber, artifacts.bvu.entry 0 0 = .ok ratio := by
    rw [Symbol.entry, links.bvu.2]
    exact ⟨_, rfl⟩
  refine ⟨ratio, offset, ?_⟩
  rw [closureRow, closed]
  simp only [known, links.dependent, place, first, links.independent, Except.mapError, second,
    List.zipIdx_cons, List.zipIdx_nil, List.foldlM_cons, List.foldlM_nil, driven, bind, Except.bind,
    pure, Except.pure]

theorem reducedMotion_eq : ∃ reduced, closed.model.reducedMotion [w, u] motion = .ok ([u], reduced) := by
  obtain ⟨one, other, links, linked, closedBy, first, second, coordinates, new, _, _⟩ := closed_eq
  have listed : closed.model.checkListed [] [w, u] = .ok ⟨⟩ := by
    have same : closed.model.checkListed [] [w, u] = linkage.model.checkListed [] [w, u] := by
      simp only [checkListed, coordinates]
    exact same.trans rfl
  have free : [w, u].filter (fun coordinate => !closed.model.isClosed coordinate) = [u] := by
    unfold isClosed
    rw [closedBy]
    decide
  have crank : closed.model.closureRow [u] 1 u = .ok (.unit 1 0) := by
    rw [closureRow, closedBy]
    rfl
  obtain ⟨_, _, rocker⟩ := closureRow_links links (by rw [closedBy]; rfl) first crank
  obtain ⟨ratio, offset, cam⟩ := closureRow_links linked (by rw [closedBy]; rfl) second rocker
  have driven : closed.model.closureRow [u] 3 u = .ok (.unit 1 0) := by
    rw [closureRow, closedBy]
    rfl
  have depth : closed.model.closedBy.size + 1 = 3 := by
    rw [closedBy]
    rfl
  obtain ⟨jacobian, column, composed, jacobianSized, columnSized⟩ : ∃ jacobian column,
      closed.model.accelerationMap [w, u] [u] = .ok (jacobian, column) ∧ jacobian.Sized 2 1 ∧
        column.Sized 2 1 := by
    rw [accelerationMap, depth]
    simp only [List.mapM_cons, List.mapM_nil, cam, driven, bind, Except.bind, pure, Except.pure]
    exact ⟨_, _, rfl, ⟨rfl, rfl⟩, ⟨rfl, rfl⟩⟩
  have mass : motion.mass.Sized 2 2 := Tensor.sized_ofSymbol rfl
  have bias : motion.bias.Sized 2 1 := Tensor.sized_ofSymbol rfl
  obtain ⟨reduced, made⟩ :=
    Motion.reduce_succeeds mass bias ⟨rfl, rfl⟩ jacobianSized columnSized
  refine ⟨reduced, ?_⟩
  have fits : motion.fault? [w, u].length = none := by decide
  simp only [reducedMotion, new, fits, listed, free, composed, made, bind, pure, Except.bind,
    Except.pure, Except.mapError, Option.isSome_none, Bool.false_eq_true, if_false]

/-- The values where the crank and the rocker are at one and turn at the rate one. -/
noncomputable def numberOf (name : String) (index : Nat) : ℝ :=
  if name = "M" then if index = 0 ∨ index = 3 then ((2 : ℕ) : ℝ) else 1
  else if name = "first_b_prime" then 0
  else if name = "second_Bvu" then Real.cos 1
  else if name = "second_b_prime" then -Real.sin 1
  else 1

noncomputable def atOne : Environment := fun symbol index =>
  some (numberOf symbol.name index)

theorem motion_holds :
    motion.Holds atOne.read !![2, 1; 1, 2] (fun _ : Fin 2 => 1) fun _ => 1 where
  mass := Tensor.holds_ofSymbol rfl fun row column => by
    fin_cases row <;> fin_cases column <;> simp [atOne, numberOf]
  bias := Tensor.holds_ofSymbol rfl fun row column => by
    simp [atOne, numberOf]
  forces := by
    refine Tensor.holds_of_getElem (m := 2) (n := 1) rfl fun row column => ?_
    have one (coordinate : Coordinate) (plain : numberOf coordinate.position.name 0 = 1) :
        (Expr.atom coordinate.atom : Expr RealNumber).Takes atOne.read 1 :=
      (Expr.takes_atom _ _).mpr (congrArg some plain)
    rw [Fin.fin_one_eq_zero column]
    fin_cases row
    · exact ⟨_, rfl, one u (by simp [numberOf, u, Coordinate.fresh, SymbolSupply.fresh])⟩
    · exact ⟨_, rfl, one v (by simp [numberOf, v, Coordinate.fresh, SymbolSupply.fresh])⟩

theorem replicateCol_one (value : ℝ) :
    replicateCol (Fin 1) (fun _ : Fin 1 => value) = !![value] := by
  ext row column
  rw [Fin.fin_one_eq_zero row, Fin.fin_one_eq_zero column]
  rfl

theorem holds_named {symbol : Symbol} (scalar : symbol.shape = .scalar) {value : ℝ}
    (named : numberOf symbol.name 0 = value) :
    (Tensor.ofSymbol symbol : Tensor RealNumber).Holds atOne.read !![value] :=
  Tensor.holds_ofSymbol (m := 1) (n := 1) scalar fun row column => by
    rw [Fin.fin_one_eq_zero row, Fin.fin_one_eq_zero column]
    exact congrArg some named

theorem accelerates_links {model : Model RealNumber} {loop : String} {driver follower : Coordinate}
    {artifacts : Loop.Artifacts RealNumber} (links : Links loop driver follower artifacts)
    (closed : model.closedBy.find? follower.name = some loop)
    (known : model.artifacts? loop = some artifacts) {acceleration : (Coordinate → ℝ) → ℝ}
    (driven : model.Accelerates atOne driver acceleration) {ratio offset : ℝ}
    (first : numberOf (loop ++ "_Bvu") 0 = ratio) (second : numberOf (loop ++ "_b_prime") 0 = offset) :
    model.Accelerates atOne follower fun given => ratio * acceleration given + offset := by
  obtain ⟨independent, dependent, bvu, bPrime⟩ := links
  have bvuHolds := holds_named bvu.2 (bvu.1 ▸ first)
  have bPrimeHolds := holds_named bPrime.2 (bPrime.1 ▸ second)
  rw [← replicateCol_one] at bPrimeHolds
  obtain ⟨_, _, _⟩ := artifacts
  cases independent
  cases dependent
  have place : ([follower].findIdx? fun other => other = follower) = some 0 := by simp
  have each (index : Fin 1) : model.Accelerates atOne [driver][index] acceleration := by
    rw [Fin.fin_one_eq_zero index]
    exact driven
  have accelerates := Accelerates.closed closed known (0 : Fin 1) place bvuHolds bPrimeHolds each
  have same : (fun given => (!![ratio] *ᵥ (fun _ : Fin 1 => acceleration given) +
      fun _ : Fin 1 => offset) 0) = fun given => ratio * acceleration given + offset := by
    funext given
    simp [dotProduct]
  exact same ▸ accelerates

end Coupled

/-- The cam follows the crank through the rocker, which is not listed. -/
theorem coupled_projects : ∃ dynamics later, Reachable Simplifier.keep Coupled.closed ∧
    (reduceDynamics [Coupled.w, Coupled.u] Coupled.motion).perform Coupled.closed =
      (.ok dynamics, later) ∧
    dynamics.independent = [Coupled.u] ∧
    Coupled.closed.model.closedBy = ⟨[("v", "first"), ("w", "second")]⟩ ∧
    dynamics.Projects later.model.graph Coupled.atOne
      ![fun given => Real.cos 1 * given Coupled.u - Real.sin 1, fun given => given Coupled.u]
      !![2, 1; 1, 2] (fun _ => 1) fun _ => 1 := by
  obtain ⟨one, other, links, linked, closedBy, first, second, _, _, tidy, _⟩ := Coupled.closed_eq
  obtain ⟨reduced, made⟩ := Coupled.reducedMotion_eq
  have fit := Coupled.reachable_closed.fit Simplifier.keep_tame
  obtain ⟨dynamics, later, reduces, independent, still⟩ :=
    reduceDynamics_succeeds Simplifier.keep_tame fit Coupled.regular_motion tidy made
  obtain ⟨_, _, _, values⟩ := reduceDynamics_projects Simplifier.keep_tame Coupled.reachable_closed
    Coupled.regular_motion reduces
  have crank : Coupled.closed.model.Accelerates Coupled.atOne Coupled.u
      fun given => given Coupled.u := .free (by rw [closedBy]; rfl)
  have rocker : Coupled.closed.model.Accelerates Coupled.atOne Coupled.v
      fun given => 1 * given Coupled.u + 0 :=
    Coupled.accelerates_links links (by rw [closedBy]; rfl) first crank (by simp [Coupled.numberOf])
      (by simp [Coupled.numberOf])
  have cam : Coupled.closed.model.Accelerates Coupled.atOne Coupled.w
      fun given => Real.cos 1 * (1 * given Coupled.u + 0) + -Real.sin 1 :=
    Coupled.accelerates_links linked (by rw [closedBy]; rfl) second rocker
      (by simp [Coupled.numberOf]) (by simp [Coupled.numberOf])
  refine ⟨dynamics, later, Coupled.reachable_closed, reduces, independent, closedBy,
    (values Coupled.atOne (still.respects _)).2 _ _ _ _ Coupled.motion_holds fun index => ?_⟩
  fin_cases index
  · simpa [sub_eq_add_neg] using cam
  · exact crank

end Model

end Mechanism
