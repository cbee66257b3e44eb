import Mechanism.Expr.Derivative
import Mechanism.Expr.Reading
import Mechanism.Proofs.Expr.Powers
import Mechanism.Proofs.Expr.Written

/-!
Expressions that are built through the constructors, and what is asked of the calls that build them.
If no call leaves a sum over among the terms or the exponents it collects, and none turns the exponent
of a hidden base into a whole one, then every node of the result is canonical, and comes back when it
is built again.
-/

namespace Mechanism

namespace Expr

variable {κ : Type} [Scalar κ]

inductive Call (κ : Type) [Scalar κ] where
  | sum (terms : List (Expr κ))
  | product (factors : List (Expr κ))
  | power (base exponent : Expr κ)
  | apply (function : Elementary) (argument : Expr κ)
  | angle (y x : Expr κ)
  | choose (relation : Relation) (left right chosen otherwise : Expr κ)

namespace Call

def operands : Call κ → List (Expr κ)
  | sum terms => terms
  | product factors => factors
  | power base exponent => [base, exponent]
  | apply _ argument => [argument]
  | angle y x => [y, x]
  | choose _ left right chosen otherwise => [left, right, chosen, otherwise]

def result : Call κ → Expr κ
  | sum terms => Expr.sum terms
  | product factors => Expr.product factors
  | power base exponent => Expr.power base exponent
  | apply function argument => Expr.apply function argument
  | angle y x => angleOf y x
  | choose relation left right chosen otherwise =>
    Expr.choose relation left right chosen otherwise

/-- What the call collects need not be collected again. -/
def Clean : Call κ → Prop
  | sum terms => Merges terms
  | product factors => Joins factors
  | power base exponent => Stops base exponent
  | _ => True

end Call

/-- A property that nodes hand down to their operands, and that the constructors hand on from the
operands of a call to its result. -/
structure Inherited (property : Expr κ → Prop) : Prop where
  number : ∀ value : κ, property (number value)
  result : ∀ call : Call κ, (∀ operand ∈ call.operands, property operand) → property call.result
  child : ∀ {expr operand : Expr κ}, property expr → operand ∈ expr.children → property operand

namespace Inherited

variable {property : Expr κ → Prop} (inherited : Inherited property)

include inherited

theorem sum {terms : List (Expr κ)} (holds : ∀ term ∈ terms, property term) :
    property (sum terms) := inherited.result (.sum terms) holds

theorem product {factors : List (Expr κ)} (holds : ∀ factor ∈ factors, property factor) :
    property (product factors) := inherited.result (.product factors) holds

variable {left right : Expr κ}

theorem power (base : property left) (exponent : property right) : property (power left right) :=
  inherited.result (.power left right) (by simp [Call.operands, base, exponent])

theorem apply (function : Elementary) (argument : property left) :
    property (apply function left) :=
  inherited.result (.apply function left) (by simpa [Call.operands] using argument)

theorem angleOf (y : property left) (x : property right) : property (angleOf left right) :=
  inherited.result (.angle left right) (by simp [Call.operands, y, x])

theorem choose {chosen otherwise : Expr κ} (relation : Relation) (first : property left)
    (second : property right) (third : property chosen) (fourth : property otherwise) :
    property (choose relation left right chosen otherwise) :=
  inherited.result (.choose relation left right chosen otherwise)
    (by simp [Call.operands, first, second, third, fourth])

theorem plus (first : property left) (second : property right) : property (left + right) :=
  inherited.sum (by simp [first, second])

theorem times (first : property left) (second : property right) : property (left * right) :=
  inherited.product (by simp [first, second])

theorem negate (holds : property left) : property (-left) :=
  inherited.product (by simp [inherited.number, holds])

theorem minus (first : property left) (second : property right) : property (left - right) := by
  have negated : property right.negate := inherited.negate second
  exact inherited.sum (by simp [first, negated])

theorem reciprocal (holds : property left) : property left.reciprocal :=
  inherited.power holds (inherited.number _)

theorem dividedBy (first : property left) (second : property right) : property (left / right) :=
  inherited.product (by simp [first, inherited.reciprocal second])

theorem square (holds : property left) : property left.square :=
  inherited.power holds (inherited.number _)

theorem squareRoot (holds : property left) : property left.squareRoot :=
  inherited.apply .sqrt holds

theorem zero : property (zero : Expr κ) := by
  have same : (Expr.zero : Expr κ) = Expr.number 0 := by
    simp [Expr.zero, Expr.number, Scalar.unsigned]
  exact same ▸ inherited.number 0

theorem rebuild {expr : Expr κ} {operands : List (Expr κ)} (node : property expr)
    (holds : ∀ operand ∈ operands, property operand) : property (expr.rebuild operands) := by
  unfold Expr.rebuild
  split
  · exact inherited.sum holds
  · exact inherited.product holds
  · exact inherited.power (holds _ (by simp)) (holds _ (by simp))
  · exact inherited.apply _ (holds _ (by simp))
  · exact inherited.angleOf (holds _ (by simp)) (holds _ (by simp))
  · exact inherited.choose _ (holds _ (by simp)) (holds _ (by simp)) (holds _ (by simp))
      (holds _ (by simp))
  · exact node

theorem substitute {expr : Expr κ} (holds : property expr)
    {replacement : Atom → Option (Expr κ)}
    (replaced : ∀ symbol value, replacement symbol = some value → property value) :
    property (expr.substitute replacement) := by
  induction expr using induct with
  | step expr ih =>
      have operands : ∀ operand ∈ expr.children.map (Expr.substitute replacement),
          property operand :=
        List.forall_mem_map.mpr fun child member => ih child member (inherited.child holds member)
      rw [substitute_eq]
      unfold replace
      split
      · rename_i symbol
        cases found : replacement symbol with
        | none => exact holds
        | some value => exact replaced symbol value found
      · exact inherited.rebuild holds operands

/-! The rules of differentiation also bring in the number one. -/

theorem angleRule {y x yRate xRate : Expr κ} (first : property y) (second : property x)
    (firstRate : property yRate) (secondRate : property xRate) :
    property (angleRule y x yRate xRate) := by
  unfold Expr.angleRule
  split
  · exact inherited.zero
  · exact inherited.dividedBy
      (inherited.minus (inherited.times second firstRate) (inherited.times first secondRate))
      (inherited.plus (inherited.square second) (inherited.square first))

theorem productRule (before : List (Expr κ)) {pairs : List (Expr κ × Expr κ)}
    (earlier : ∀ factor ∈ before, property factor)
    (holds : ∀ pair ∈ pairs, property pair.1 ∧ property pair.2) :
    ∀ term ∈ productRule before pairs, property term := by
  induction pairs generalizing before with
  | nil => exact List.forall_mem_nil _
  | cons head tail ih =>
      obtain ⟨⟨factor, rate⟩, later⟩ := List.forall_mem_cons.mp holds
      have rest := ih (before ++ [head.1])
        (List.forall_mem_append.mpr ⟨earlier, List.forall_mem_singleton.mpr factor⟩) later
      unfold Expr.productRule
      simp only
      split
      · exact rest
      · refine List.forall_mem_cons.mpr ⟨inherited.product ?_, rest⟩
        refine List.forall_mem_append.mpr ⟨List.forall_mem_append.mpr ⟨earlier, ?_⟩, ?_⟩
        · exact List.forall_mem_map.mpr fun pair member => (later pair member).1
        · exact List.forall_mem_singleton.mpr rate

variable (unit : property one)

include unit

theorem slope (function : Elementary) {argument : Expr κ} (holds : property argument) :
    property (slope function argument) := by
  have remainder : property (one - argument.square) :=
    inherited.minus unit (inherited.square holds)
  have root : property (one - argument.square).squareRoot.reciprocal :=
    inherited.reciprocal (inherited.squareRoot remainder)
  cases function with
  | sin => exact inherited.apply .cos holds
  | cos => exact inherited.negate (inherited.apply .sin holds)
  | tan => exact inherited.plus unit (inherited.square (inherited.apply .tan holds))
  | asin => exact root
  | acos => exact inherited.negate root
  | atan => exact inherited.reciprocal (inherited.plus unit (inherited.square holds))
  | sqrt =>
      exact inherited.times (inherited.number _) (inherited.reciprocal (inherited.squareRoot holds))
  | abs => exact inherited.apply .sign holds
  | sign => exact inherited.zero
  | exp => exact inherited.apply .exp holds
  | ln => exact inherited.reciprocal holds

theorem powerRule {base exponent baseRate exponentRate : Expr κ}
    (node : property (pow base exponent)) (firstRate : property baseRate)
    (secondRate : property exponentRate) :
    property (powerRule base exponent baseRate exponentRate) := by
  have first : property base := inherited.child node (by simp [children])
  have second : property exponent := inherited.child node (by simp [children])
  unfold Expr.powerRule
  split
  · split
    · exact inherited.zero
    · have lower : property (Expr.power base (exponent - one)) :=
        inherited.power first (inherited.minus second unit)
      exact inherited.product (by simp [second, lower, firstRate])
  · exact inherited.times node
      (inherited.plus (inherited.times secondRate (inherited.apply .ln first))
        (inherited.dividedBy (inherited.times second firstRate) first))

theorem rate (unknown : Atom) {expr : Expr κ} {rates : List (Expr κ)} (node : property expr)
    (holds : ∀ rate ∈ rates, property rate) : property (rate unknown expr rates) := by
  have operand {child : Expr κ} (member : child ∈ expr.children) : property child :=
    inherited.child node member
  unfold Expr.rate
  split
  · split
    · exact unit
    · exact inherited.zero
  · exact inherited.sum holds
  · rename_i operands _
    refine inherited.sum (inherited.productRule [] (List.forall_mem_nil _) fun pair member => ?_)
    exact ⟨operand (List.of_mem_zip member).1, holds _ (List.of_mem_zip member).2⟩
  · exact inherited.powerRule unit node (holds _ (by simp)) (holds _ (by simp))
  · split
    · exact inherited.zero
    · exact inherited.times (inherited.slope unit _ (operand (by simp [children])))
        (holds _ (by simp))
  · exact inherited.angleRule (operand (by simp [children])) (operand (by simp [children]))
      (holds _ (by simp)) (holds _ (by simp))
  · exact inherited.choose _ (operand (by simp [children])) (operand (by simp [children]))
      (holds _ (by simp)) (holds _ (by simp))
  · exact inherited.zero

theorem derivative (unknown : Atom) {expr : Expr κ} (holds : property expr) :
    property (expr.derivative unknown) := by
  induction expr using induct with
  | step expr ih =>
      rw [derivative_eq]
      exact inherited.rate unit unknown holds
        (List.forall_mem_map.mpr fun child member => ih child member (inherited.child holds member))

end Inherited

/-- What allowed calls build of numbers and atoms, with the parts of what they have built. -/
inductive Obtained (allowed : Call κ → Prop) : Expr κ → Prop where
  | number (value : κ) : Obtained allowed (number value)
  | atom (symbol : Atom) : Obtained allowed (atom symbol)
  | call (call : Call κ) (operands : ∀ operand ∈ call.operands, Obtained allowed operand)
      (permitted : allowed call) : Obtained allowed call.result
  | child {expr operand : Expr κ} (obtained : Obtained allowed expr)
      (member : operand ∈ expr.children) : Obtained allowed operand
  | rest {term : Expr κ} (obtained : Obtained allowed term) :
      Obtained allowed term.splitCoefficient.2

/-- Some calls build the expression of the sources, whatever else is allowed. -/
def Built (sources : List (Expr κ)) (expr : Expr κ) : Prop :=
  ∃ calls : List (Call κ), ∀ allowed : Call κ → Prop,
    (∀ source ∈ sources, Obtained allowed source) → (∀ call ∈ calls, allowed call) →
      Obtained allowed expr

namespace Built

variable {sources : List (Expr κ)}

theorem source {expr : Expr κ} (member : expr ∈ sources) : Built sources expr :=
  ⟨[], fun _ obtained _ => obtained expr member⟩

theorem all {exprs : List (Expr κ)} (built : ∀ expr ∈ exprs, Built sources expr) :
    ∃ calls : List (Call κ), ∀ allowed : Call κ → Prop,
      (∀ source ∈ sources, Obtained allowed source) → (∀ call ∈ calls, allowed call) →
        ∀ expr ∈ exprs, Obtained allowed expr := by
  induction exprs with
  | nil => exact ⟨[], fun _ _ _ => List.forall_mem_nil _⟩
  | cons head tail ih =>
      obtain ⟨here, later⟩ := List.forall_mem_cons.mp built
      obtain ⟨first, firstBuilds⟩ := here
      obtain ⟨rest, restBuilds⟩ := ih later
      refine ⟨first ++ rest, fun allowed obtained permitted => ?_⟩
      obtain ⟨one, others⟩ := List.forall_mem_append.mp permitted
      exact List.forall_mem_cons.mpr
        ⟨firstBuilds allowed obtained one, restBuilds allowed obtained others⟩

theorem inherited : Inherited (Built sources) where
  number value := ⟨[], fun _ _ _ => .number value⟩
  result call operands := by
    obtain ⟨calls, builds⟩ := all operands
    refine ⟨call :: calls, fun allowed obtained permitted => ?_⟩
    obtain ⟨here, others⟩ := List.forall_mem_cons.mp permitted
    exact .call call (builds allowed obtained others) here
  child built member := by
    obtain ⟨calls, builds⟩ := built
    exact ⟨calls, fun allowed obtained permitted => (builds allowed obtained permitted).child member⟩

theorem substitute {expr : Expr κ} (built : Built sources expr)
    {replacement : Atom → Option (Expr κ)}
    (replaced : ∀ symbol value, replacement symbol = some value → Built sources value) :
    Built sources (expr.substitute replacement) := inherited.substitute built replaced

theorem derivative [Neutral κ] (unknown : Atom) {expr : Expr κ} (built : Built sources expr) :
    Built sources (expr.derivative unknown) := by
  have same : (one : Expr κ) = Expr.number 1 := (number_of_nonzero Neutral.isZero_one).symm
  exact inherited.derivative (same ▸ inherited.number 1) unknown built

end Built

section Neutral

variable [Neutral κ]

theorem Call.canonical_result {call : Call κ} (clean : call.Clean)
    (operands : ∀ operand ∈ call.operands, operand.Canonical) : call.result.Canonical := by
  cases call with
  | sum terms => exact canonical_sum operands clean
  | product factors => exact canonical_product operands clean
  | power base exponent =>
      exact canonical_power (operands base (by simp [Call.operands]))
        (operands exponent (by simp [Call.operands])) clean
  | apply function argument =>
      exact canonical_apply function (operands argument (by simp [Call.operands]))
  | angle y x =>
      exact canonical_angleOf (operands y (by simp [Call.operands]))
        (operands x (by simp [Call.operands]))
  | choose relation left right chosen otherwise =>
      exact canonical_choose relation (operands left (by simp [Call.operands]))
        (operands right (by simp [Call.operands])) (operands chosen (by simp [Call.operands]))
        (operands otherwise (by simp [Call.operands]))

theorem Obtained.canonical {expr : Expr κ} (obtained : Obtained Call.Clean expr) :
    expr.Canonical := by
  induction obtained with
  | number value => exact canonical_number value
  | atom symbol => exact canonical_leaf trivial rfl
  | call _ _ clean operands => exact Call.canonical_result clean operands
  | child _ member canonical => exact canonical.child member
  | rest _ canonical => exact canonical_splitCoefficient canonical

/-- Whatever clean calls build comes back when any of its nodes is built again, and all its nodes are
as they should be. -/
theorem rebuilt_of_clean {expr : Expr κ} (obtained : Obtained Call.Clean expr) :
    ∀ node ∈ expr.parts, node.mapChildren id = node ∧ node.Settled := by
  refine fun node member => ?_
  have canonical := parts_induction obtained.canonical (fun parent among => parent.child among)
    node member
  refine ⟨?_, canonical.settled⟩
  rw [mapChildren, List.map_id, canonical.rebuild_eq]

end Neutral

namespace LeftOver

def x : Atom := .whole ⟨0, "x", .scalar, .real⟩

def y : Atom := .whole ⟨1, "y", .scalar, .real⟩

theorem joins_square : Joins [(atom x : Expr RealNumber), atom x] := by
  refine ⟨fun group member => ?_, fun group member passes => ?_⟩
  all_goals
    have leaves : ∀ leaf ∈ symbolicIn (factorsOf [(atom x : Expr RealNumber), atom x]),
        leaf = atom x := by simp [factorsOf, factors, symbolicIn, asNumber?]
    obtain ⟨⟨leaf, among, same⟩, exponents⟩ := mem_likeBases member
  · have nothing : symbolicIn (addendsOf group.2) = [] := by
      refine symbolicIn_numerals fun exponent inside => ?_
      obtain ⟨leaf, here, _, rfl⟩ := mem_exponents (exponents ▸ inside)
      rw [leaves leaf here]
      exact ⟨1, rfl⟩
    rw [Merges, nothing]
    intro term among
    cases among
  · rw [← same, leaves leaf among] at passes
    rcases passes with passes | passes <;> cases passes

/-- A product of equal factors is built by a clean call. -/
theorem rebuilt_square : Joins [(atom x : Expr RealNumber), atom x] ∧
    ∀ node ∈ (product [atom x, atom x] : Expr RealNumber).parts,
      node.mapChildren id = node ∧ node.Settled :=
  ⟨joins_square, rebuilt_of_clean
    (.call (.product [atom x, atom x]) (by simp [Call.operands, Obtained.atom]) joins_square)⟩

noncomputable def inner : Expr RealNumber := sum [number 1, atom x]

/-- Of the two occurrences of the inner sum one is left over. -/
noncomputable def outer : Expr RealNumber :=
  sum [product [number (Scalar.ofInt 2), inner], product [number (-1), inner], atom y]

theorem canonical_atom (symbol : Atom) : (atom symbol : Expr RealNumber).Canonical :=
  canonical_leaf trivial rfl

theorem canonical_inner : (add [num 1, atom x] : Expr RealNumber).Canonical := by
  refine .node ⟨by simp, ?_, by simp [label], by simp [numbersIn, asNumber?], ?_, ?_⟩ ?_
  · refine List.pairwise_pair.mpr ?_
    exact precedes_weak.asymm (precedes_symbolic 1 rfl)
  · simp [numbersIn, asNumber?, Neutral.isZero_one]
  · exact List.nodup_singleton _
  · exact List.forall_mem_cons.mpr
      ⟨canonical_one, List.forall_mem_singleton.mpr (canonical_atom x)⟩

theorem inner_eq : inner = add [num 1, atom x] := by
  have rebuilt := canonical_inner.rebuild_eq
  rw [inner, number_of_nonzero Neutral.isZero_one]
  exact rebuilt

theorem unscaled_inner : (add [num 1, atom x] : Expr RealNumber).Unscaled :=
  unscaled_of_leaf canonical_inner rfl nofun

theorem product_inner {coefficient : RealNumber} (nonzero : Scalar.isZero coefficient = false)
    (notOne : Scalar.isOne coefficient = false) :
    product [number coefficient, inner] = scaledBy coefficient (add [num 1, atom x]) := by
  have rebuilt := (canonical_scaledBy unscaled_inner nonzero notOne).rebuild_eq
  rw [inner_eq, number_of_nonzero nonzero]
  exact rebuilt

theorem likeTerms_inner {first second : RealNumber} :
    likeTerms [scaledBy first (add [num 1, atom x]), scaledBy second (add [num 1, atom x]),
      (atom y : Expr RealNumber)] =
      [(add [num 1, atom x], 0 + first + second), (atom y, 0 + 1)] := by
  have unlike : (add [num 1, atom x] : Expr RealNumber) ≠ atom y := nofun
  have plain : (atom y : Expr RealNumber).splitCoefficient = (1, atom y) := rfl
  rw [likeTerms]
  simp only [List.map_cons, List.map_nil, splitCoefficient_scaledBy unscaled_inner, plain,
    Grouping.ofPairs_eq]
  simp [Grouping.distinct, Grouping.extend, Grouping.valuesOf, unlike, unlike.symm]

theorem collectedIn_inner :
    collectedIn [scaledBy (Scalar.ofInt 2) (add [num 1, atom x]),
      scaledBy (-1) (add [num 1, atom x]), (atom y : Expr RealNumber)] =
      [add [num 1, atom x], atom y] := by
  have left : Scalar.isZero (0 + Scalar.ofInt 2 + -1 : RealNumber) = false ∧
      Scalar.isOne (0 + Scalar.ofInt 2 + -1 : RealNumber) = true :=
    ⟨decide_eq_false (show (0 + ((2 : ℤ) : ℝ) + -1) ≠ 0 by norm_num),
      decide_eq_true (show (0 + ((2 : ℤ) : ℝ) + -1) = 1 by norm_num)⟩
  have plain : Scalar.isZero (0 + 1 : RealNumber) = false ∧ Scalar.isOne (0 + 1 : RealNumber) = true :=
    ⟨decide_eq_false (show (0 + 1 : ℝ) ≠ 0 by norm_num),
      decide_eq_true (show (0 + 1 : ℝ) = 1 by norm_num)⟩
  have symbolic : symbolicIn [scaledBy (Scalar.ofInt 2) (add [num 1, atom x]),
      scaledBy (-1) (add [num 1, atom x]), (atom y : Expr RealNumber)] = _ :=
    symbolicIn_eq_self (by simp [scaledBy, asNumber?])
  rw [collectedIn, symbolic, likeTerms_inner]
  simp [scaled?, left, plain]

theorem outer_eq : outer = add (arrange [add [num 1, atom x], atom y]) := by
  have two : Scalar.isZero (Scalar.ofInt 2 : RealNumber) = false ∧
      Scalar.isOne (Scalar.ofInt 2 : RealNumber) = false :=
    ⟨decide_eq_false (show ((2 : ℤ) : ℝ) ≠ 0 by norm_num),
      decide_eq_false (show ((2 : ℤ) : ℝ) ≠ 1 by norm_num)⟩
  have less : Scalar.isZero (-1 : RealNumber) = false ∧ Scalar.isOne (-1 : RealNumber) = false :=
    ⟨decide_eq_false (show (-1 : ℝ) ≠ 0 by norm_num),
      decide_eq_false (show (-1 : ℝ) ≠ 1 by norm_num)⟩
  have canonical : ∀ term ∈ [scaledBy (Scalar.ofInt 2) (add [num 1, atom x]),
      scaledBy (-1) (add [num 1, atom x]), (atom y : Expr RealNumber)], term.Canonical := by
    simp [canonical_atom, canonical_scaledBy unscaled_inner, two, less]
  have symbolic : ∀ term ∈ [scaledBy (Scalar.ofInt 2) (add [num 1, atom x]),
      scaledBy (-1) (add [num 1, atom x]), (atom y : Expr RealNumber)], term.asNumber? = none := by
    simp [scaledBy, asNumber?]
  rw [outer, product_inner two.1 two.2, product_inner less.1 less.2, sum_canonical canonical,
    addendsOf_eq_self (by simp [scaledBy, label]), collectedIn_inner, constantIn_symbolic symbolic]
  rfl

/-- The sum that is left over is a term of a sum, and building that again changes it. -/
theorem outer_unsettled : Obtained (fun _ => True) outer ∧ outer.mapChildren id ≠ outer := by
  constructor
  · have innerObtained : Obtained (fun _ => True) inner :=
      .call (.sum [number 1, atom x]) (by simp [Call.operands, Obtained.number, Obtained.atom])
        trivial
    have scaled (coefficient : RealNumber) :
        Obtained (fun _ => True) (product [number coefficient, inner]) :=
      .call (.product [number coefficient, inner])
        (by simp [Call.operands, Obtained.number, innerObtained]) trivial
    exact .call (.sum [product [number (Scalar.ofInt 2), inner],
      product [number (-1), inner], atom y]) (by simp [Call.operands, scaled, Obtained.atom]) trivial
  · have perm := arrange_perm [(add [num 1, atom x] : Expr RealNumber), atom y]
    rw [outer_eq]
    generalize arrange [(add [num 1, atom x] : Expr RealNumber), atom y] = terms at perm
    have canonical : ∀ term ∈ terms, term.Canonical := fun term member =>
      List.forall_mem_cons.mpr ⟨canonical_inner, List.forall_mem_singleton.mpr (canonical_atom y)⟩
        term (perm.mem_iff.mp member)
    have unlike : ((symbolicIn (addendsOf terms)).map fun leaf => leaf.splitCoefficient.2).Nodup := by
      rw [addendsOf_eq, ((symbolicIn_perm (perm.flatMap_right addends)).map _).nodup_iff]
      simp [addends, addendsOf, symbolicIn, asNumber?, splitCoefficient, x, y]
    have settled := (canonical_sum canonical (merges_of_unlike canonical unlike)).settled
    intro same
    rw [mapChildren, List.map_id] at same
    rw [show sum terms = add terms from same] at settled
    exact SettledSum.flat settled _ (perm.mem_iff.mpr List.mem_cons_self) rfl

end LeftOver

end Expr

end Mechanism
