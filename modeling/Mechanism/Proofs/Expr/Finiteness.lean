import Mechanism.Proofs.Expr.Constructed
import Mechanism.Proofs.Expr.Numerals

/-!
Where numbers that are not finite come from. Powers and functions of numbers are folded if they are
finite only; sums and products of numbers, and angles, are folded as they come out. So a number in
what a constructor builds is finite, or it is one of the sums, products and angles of numbers that
the call has computed.
-/

namespace Mechanism

namespace Expr

variable {κ : Type} [Scalar κ]

mutual
def sumComputes : Nat → List (Expr κ) → List κ
  | 0, _ => []
  | fuel + 1, terms =>
    let leaves := addendsOf terms
    let likes := likeTerms (symbolicIn leaves)
    (numbersIn leaves).foldl (· + ·) 0 :: likes.map (·.2) ++
      likes.flatMap fun term =>
        if Scalar.isZero term.2 || Scalar.isOne term.2 then []
        else productComputes fuel [number term.2, term.1]
def productComputes : Nat → List (Expr κ) → List κ
  | 0, _ => []
  | fuel + 1, operands =>
    let leaves := factorsOf operands
    let coefficient := (numbersIn leaves).foldl (· * ·) 1
    let groups := likeBases (symbolicIn leaves)
    let powers := groups.map fun group => powerWith fuel group.1 (sumWith fuel group.2)
    if Scalar.isZero coefficient then []
    else
      (numbersIn (powers.flatMap pieces)).foldl (· * ·) coefficient ::
        groups.flatMap fun group =>
          sumComputes fuel group.2 ++ powerComputes fuel group.1 (sumWith fuel group.2)
def powerComputes : Nat → Expr κ → Expr κ → List κ
  | 0, _, _ => []
  | fuel + 1, base, exponent =>
    if exponent.isZero || exponent.isOne then []
    else
      match exponent.asNumber?.bind Scalar.wholeExponent?, base with
      | some _, pow inner innerExponent =>
        productComputes fuel [innerExponent, exponent] ++
          powerComputes fuel inner (productWith fuel [innerExponent, exponent])
      | some _, mul operands =>
        operands.flatMap (fun factor => powerComputes fuel factor exponent) ++
          productComputes fuel (operands.map fun factor => powerWith fuel factor exponent)
      | _, _ => []
end

/-- The sums, products and angles of numbers that a call computes. Powers and functions are not
listed: they are folded if they are finite only. -/
def Call.computes : Call κ → List κ
  | sum terms => sumComputes (fuelFor (nestingOf terms)) terms
  | product operands => productComputes (fuelFor (nestingOf operands)) operands
  | power base exponent => powerComputes (fuelFor (max base.nesting exponent.nesting)) base exponent
  | angle (num y) (num x) => [Scalar.angle y x]
  | _ => []

/-- Every number that occurs is allowed. -/
def HoldsOnly (allowed : κ → Prop) (expr : Expr κ) : Prop :=
  ∀ value, num value ∈ expr.parts → allowed value

section

variable {allowed : κ → Prop}

theorem holdsOnly_num {value : κ} : (num value).HoldsOnly allowed ↔ allowed value := by
  simp [HoldsOnly, parts_eq, children]

theorem holdsOnly_compound {expr : Expr κ} (compound : expr.asNumber? = none) :
    expr.HoldsOnly allowed ↔ ∀ child ∈ expr.children, child.HoldsOnly allowed := by
  simp only [HoldsOnly, parts_eq expr, List.mem_cons, List.mem_flatMap]
  constructor
  · intro holds child member value occurs
    exact holds value (Or.inr ⟨child, member, occurs⟩)
  · rintro holds value (rfl | ⟨child, member, occurs⟩)
    · cases compound
    · exact holds child member value occurs

theorem HoldsOnly.child {expr child : Expr κ} (holds : expr.HoldsOnly allowed)
    (member : child ∈ expr.children) : child.HoldsOnly allowed := by
  intro value occurs
  refine holds value ?_
  rw [parts_eq]
  exact List.mem_cons_of_mem _ (List.mem_flatMap.mpr ⟨child, member, occurs⟩)

theorem HoldsOnly.mono {expr : Expr κ} {more : κ → Prop} (holds : expr.HoldsOnly allowed)
    (le : ∀ value, allowed value → more value) : expr.HoldsOnly more :=
  fun value occurs => le value (holds value occurs)

end

structure Admits (allowed : κ → Prop) : Prop where
  zero : allowed 0
  one : allowed 1
  finite : ∀ value : κ, Scalar.isFinite value = true → allowed value

namespace Admits

variable {allowed : κ → Prop} (admits : Admits allowed)

include admits

theorem unsigned {value : κ} (permitted : allowed value) : allowed (Scalar.unsigned value) := by
  unfold Scalar.unsigned
  split
  · exact admits.zero
  · exact permitted

theorem number {value : κ} (permitted : allowed value) :
    (Expr.number value).HoldsOnly allowed :=
  holdsOnly_num.mpr (admits.unsigned permitted)

theorem holdsZero : (Expr.zero : Expr κ).HoldsOnly allowed := holdsOnly_num.mpr admits.zero

theorem holdsOne : (Expr.one : Expr κ).HoldsOnly allowed := holdsOnly_num.mpr admits.one

omit admits in
theorem addends {expr : Expr κ} (holds : expr.HoldsOnly allowed) :
    ∀ leaf ∈ expr.addends, leaf.HoldsOnly allowed := by
  induction expr using induct with
  | step expr ih =>
      cases expr with
      | add terms =>
          rw [Expr.addends, addendsOf_eq]
          intro leaf member
          obtain ⟨term, among, inside⟩ := List.mem_flatMap.mp member
          exact ih term among (holds.child among) leaf inside
      | _ => exact List.forall_mem_singleton.mpr holds

omit admits in
theorem factors {expr : Expr κ} (holds : expr.HoldsOnly allowed) :
    ∀ leaf ∈ expr.factors, leaf.HoldsOnly allowed := by
  induction expr using induct with
  | step expr ih =>
      cases expr with
      | mul operands =>
          rw [Expr.factors, factorsOf_eq]
          intro leaf member
          obtain ⟨operand, among, inside⟩ := List.mem_flatMap.mp member
          exact ih operand among (holds.child among) leaf inside
      | _ => exact List.forall_mem_singleton.mpr holds

omit admits in
theorem addendsOf {terms : List (Expr κ)} (holds : ∀ term ∈ terms, term.HoldsOnly allowed) :
    ∀ leaf ∈ symbolicIn (Expr.addendsOf terms), leaf.HoldsOnly allowed := by
  intro leaf member
  rw [addendsOf_eq] at member
  obtain ⟨term, among, inside⟩ := List.mem_flatMap.mp (List.mem_of_mem_filter member)
  exact addends (holds term among) leaf inside

omit admits in
theorem factorsOf {operands : List (Expr κ)}
    (holds : ∀ operand ∈ operands, operand.HoldsOnly allowed) :
    ∀ leaf ∈ symbolicIn (Expr.factorsOf operands), leaf.HoldsOnly allowed := by
  intro leaf member
  rw [factorsOf_eq] at member
  obtain ⟨operand, among, inside⟩ := List.mem_flatMap.mp (List.mem_of_mem_filter member)
  exact factors (holds operand among) leaf inside

theorem splitCoefficient {term : Expr κ} (holds : term.HoldsOnly allowed) :
    term.splitCoefficient.2.HoldsOnly allowed := by
  unfold Expr.splitCoefficient
  split
  · exact admits.holdsOne
  · exact holds.child (by simp [children])
  · refine (holdsOnly_compound rfl).mpr fun child member => ?_
    exact holds.child (List.mem_cons_of_mem _ member)
  · exact holds

theorem baseAndExponent {factor : Expr κ} (holds : factor.HoldsOnly allowed) :
    factor.baseAndExponent.1.HoldsOnly allowed ∧ factor.baseAndExponent.2.HoldsOnly allowed := by
  unfold Expr.baseAndExponent
  split
  · exact ⟨holds.child (by simp [children]), holds.child (by simp [children])⟩
  · exact ⟨holds, admits.holdsOne⟩

theorem likeTerms {terms : List (Expr κ)} (holds : ∀ term ∈ terms, term.HoldsOnly allowed) :
    ∀ group ∈ Expr.likeTerms terms, group.1.HoldsOnly allowed := by
  intro group member
  obtain ⟨term, among, same⟩ := mem_likeTerms member
  rw [← same]
  exact admits.splitCoefficient (holds term among)

theorem likeBases {operands : List (Expr κ)}
    (holds : ∀ operand ∈ operands, operand.HoldsOnly allowed) :
    ∀ group ∈ Expr.likeBases operands,
      group.1.HoldsOnly allowed ∧ ∀ exponent ∈ group.2, exponent.HoldsOnly allowed := by
  intro group member
  obtain ⟨⟨leaf, among, same⟩, exponents⟩ := mem_likeBases member
  refine ⟨same ▸ (admits.baseAndExponent (holds leaf among)).1, fun exponent inside => ?_⟩
  obtain ⟨factor, here, _, rfl⟩ := mem_exponents (exponents ▸ inside)
  exact (admits.baseAndExponent (holds factor here)).2

omit admits in
theorem pieces {power : Expr κ} (holds : power.HoldsOnly allowed) :
    ∀ piece ∈ Expr.pieces power, piece.HoldsOnly allowed := by
  unfold Expr.pieces
  split
  · exact fun piece member => holds.child member
  · exact List.forall_mem_singleton.mpr holds

theorem ofTerms {terms : List (Expr κ)} (holds : ∀ term ∈ terms, term.HoldsOnly allowed) :
    (Expr.ofTerms terms).HoldsOnly allowed := by
  unfold Expr.ofTerms
  split
  · exact admits.holdsZero
  · exact List.forall_mem_singleton.mp holds
  · refine (holdsOnly_compound rfl).mpr fun child member => ?_
    exact holds child ((arrange_perm _).mem_iff.mp member)

theorem ofFactors {coefficient : κ} {operands : List (Expr κ)} (permitted : allowed coefficient)
    (holds : ∀ operand ∈ operands, operand.HoldsOnly allowed) :
    (Expr.ofFactors coefficient operands).HoldsOnly allowed := by
  have sorted : ∀ operand ∈ arrange operands, operand.HoldsOnly allowed :=
    fun operand member => holds operand ((arrange_perm _).mem_iff.mp member)
  unfold Expr.ofFactors
  split
  · exact admits.holdsZero
  · generalize arrange operands = arranged at sorted
    split
    · exact admits.number permitted
    · exact List.forall_mem_singleton.mp sorted
    · exact (holdsOnly_compound rfl).mpr sorted
    · exact (holdsOnly_compound rfl).mpr
        (List.forall_mem_cons.mpr ⟨admits.number permitted, sorted⟩)

omit admits in
/-- One round of the constructors holds no other numbers than its operands and what it computes. -/
structure Round (allowed : κ → Prop) (fuel : Nat) : Prop where
  sum : ∀ {terms : List (Expr κ)}, (∀ term ∈ terms, term.HoldsOnly allowed) →
    (∀ value ∈ sumComputes fuel terms, allowed value) → (sumWith fuel terms).HoldsOnly allowed
  product : ∀ {operands : List (Expr κ)}, (∀ operand ∈ operands, operand.HoldsOnly allowed) →
    (∀ value ∈ productComputes fuel operands, allowed value) →
    (productWith fuel operands).HoldsOnly allowed
  power : ∀ {base exponent : Expr κ}, base.HoldsOnly allowed → exponent.HoldsOnly allowed →
    (∀ value ∈ powerComputes fuel base exponent, allowed value) →
    (powerWith fuel base exponent).HoldsOnly allowed

theorem sum_succ {fuel : Nat} (round : Round allowed fuel) {terms : List (Expr κ)}
    (holds : ∀ term ∈ terms, term.HoldsOnly allowed)
    (computed : ∀ value ∈ sumComputes (fuel + 1) terms, allowed value) :
    (sumWith (fuel + 1) terms).HoldsOnly allowed := by
  rw [sumComputes] at computed
  obtain ⟨folded, scaled⟩ := List.forall_mem_append.mp computed
  obtain ⟨constant, coefficients⟩ := List.forall_mem_cons.mp folded
  rw [sumWith]
  refine admits.ofTerms (List.forall_mem_append.mpr ⟨fun term member => ?_, fun term member => ?_⟩)
  · obtain ⟨group, among, same⟩ := List.mem_filterMap.mp member
    have rest := admits.likeTerms (addendsOf holds) group among
    have coefficient := coefficients group.2 (List.mem_map_of_mem among)
    unfold scaledTerm? at same
    split at same
    · cases same
    · rename_i nonzero
      split at same
      · cases same
        exact rest
      · rename_i several
        cases same
        refine round.product (List.forall_mem_cons.mpr
          ⟨admits.number coefficient, List.forall_mem_singleton.mpr rest⟩) fun value inside => ?_
        refine scaled value (List.mem_flatMap.mpr ⟨group, among, ?_⟩)
        rwa [if_neg (by simp [nonzero, several])]
  · split at member
    · cases member
    · rw [List.mem_singleton.mp member]
      exact admits.number constant

theorem product_succ {fuel : Nat} (round : Round allowed fuel) {operands : List (Expr κ)}
    (holds : ∀ operand ∈ operands, operand.HoldsOnly allowed)
    (computed : ∀ value ∈ productComputes (fuel + 1) operands, allowed value) :
    (productWith (fuel + 1) operands).HoldsOnly allowed := by
  rw [productComputes] at computed
  rw [productWith]
  simp only at computed ⊢
  split
  · exact admits.holdsZero
  · rename_i nonzero
    rw [if_neg nonzero] at computed
    obtain ⟨coefficient, inner⟩ := List.forall_mem_cons.mp computed
    refine admits.ofFactors coefficient fun part member => ?_
    obtain ⟨power, among, inside⟩ := List.mem_flatMap.mp (List.mem_of_mem_filter member)
    obtain ⟨group, present, rfl⟩ := List.mem_map.mp among
    obtain ⟨base, exponents⟩ := admits.likeBases (factorsOf holds) group present
    obtain ⟨summed, raised⟩ := List.forall_mem_append.mp fun value listed =>
      inner value (List.mem_flatMap.mpr ⟨group, present, listed⟩)
    exact pieces (round.power base (round.sum exponents summed) raised) part inside

theorem power_succ {fuel : Nat} (round : Round allowed fuel) {base exponent : Expr κ}
    (first : base.HoldsOnly allowed) (second : exponent.HoldsOnly allowed)
    (computed : ∀ value ∈ powerComputes (fuel + 1) base exponent, allowed value) :
    (powerWith (fuel + 1) base exponent).HoldsOnly allowed := by
  unfold powerComputes at computed
  unfold powerWith
  split
  · exact admits.holdsOne
  rename_i nonzero
  split
  · exact first
  rename_i several
  rw [if_neg (by simp [nonzero, several])] at computed
  split
  · rename_i value folded
    refine admits.number (admits.finite value ?_)
    unfold foldedPower? at folded
    split at folded
    · exact (Option.filter_eq_some_iff.mp folded).2
    · cases folded
  split
  · rename_i inner innerExponent whole _
    rw [whole] at computed
    obtain ⟨exponents, raised⟩ := List.forall_mem_append.mp computed
    have multiplied := round.product (List.forall_mem_cons.mpr
      ⟨first.child (by simp [children]), List.forall_mem_singleton.mpr second⟩) exponents
    exact round.power (first.child (by simp [children])) multiplied raised
  · rename_i operands whole _
    rw [whole] at computed
    obtain ⟨raised, multiplied⟩ := List.forall_mem_append.mp computed
    refine round.product (List.forall_mem_map.mpr fun factor member => ?_) multiplied
    refine round.power (first.child member) second fun value inside => ?_
    exact raised value (List.mem_flatMap.mpr ⟨factor, member, inside⟩)
  · split
    · exact admits.holdsOne
    · refine (holdsOnly_compound rfl).mpr ?_
      exact List.forall_mem_cons.mpr ⟨first, List.forall_mem_singleton.mpr second⟩

theorem round (fuel : Nat) : Round allowed fuel := by
  induction fuel with
  | zero =>
      constructor
      · exact fun holds _ => (holdsOnly_compound rfl).mpr holds
      · exact fun holds _ => (holdsOnly_compound rfl).mpr holds
      · exact fun first second _ => (holdsOnly_compound rfl).mpr
          (List.forall_mem_cons.mpr ⟨first, List.forall_mem_singleton.mpr second⟩)
  | succ fuel ih =>
      exact ⟨admits.sum_succ ih, admits.product_succ ih, admits.power_succ ih⟩

theorem result (call : Call κ) (holds : ∀ operand ∈ call.operands, operand.HoldsOnly allowed)
    (computed : ∀ value ∈ call.computes, allowed value) : call.result.HoldsOnly allowed := by
  cases call with
  | sum terms => exact (admits.round _).sum holds computed
  | product operands => exact (admits.round _).product holds computed
  | power base exponent =>
      exact (admits.round _).power (holds base (by simp [Call.operands]))
        (holds exponent (by simp [Call.operands])) computed
  | apply function argument =>
      rw [Call.result]
      unfold Expr.apply
      simp only
      split
      · rename_i value folded
        obtain ⟨_, _, filtered⟩ := Option.bind_eq_some_iff.mp folded
        exact admits.number (admits.finite value (Option.filter_eq_some_iff.mp filtered).2)
      · exact (holdsOnly_compound rfl).mpr holds
  | angle y x =>
      rw [Call.result]
      unfold Expr.angleOf
      split
      · exact admits.number (computed _ (List.mem_singleton.mpr rfl))
      · exact (holdsOnly_compound rfl).mpr holds
  | choose relation left right chosen otherwise =>
      have branches : chosen.HoldsOnly allowed ∧ otherwise.HoldsOnly allowed :=
        ⟨holds chosen (by simp [Call.operands]), holds otherwise (by simp [Call.operands])⟩
      rw [Call.result]
      unfold Expr.choose
      split
      · split
        · exact branches.1
        · exact branches.2
      · split
        · exact branches.1
        · exact (holdsOnly_compound rfl).mpr holds

end Admits

def rebuildCall? (expr : Expr κ) (operands : List (Expr κ)) : Option (Call κ) :=
  match expr, operands with
  | add _, _ => some (.sum operands)
  | mul _, _ => some (.product operands)
  | pow .., [base, exponent] => some (.power base exponent)
  | call function _, [argument] => some (.apply function argument)
  | angle .., [y, x] => some (.angle y x)
  | cond relation .., [left, right, chosen, otherwise] =>
    some (.choose relation left right chosen otherwise)
  | _, _ => none

theorem rebuild_eq_call (expr : Expr κ) (operands : List (Expr κ)) :
    expr.rebuild operands = ((rebuildCall? expr operands).map Call.result).getD expr := by
  unfold rebuild rebuildCall?
  split <;> simp_all [Call.result]

theorem operands_rebuildCall {expr : Expr κ} {operands : List (Expr κ)} {call : Call κ}
    (built : rebuildCall? expr operands = some call) : call.operands = operands := by
  unfold rebuildCall? at built
  split at built <;> cases built <;> rfl

/-- What the calls of a substitution compute, over all nodes that are built again. -/
def substituteComputes (replacement : Atom → Option (Expr κ)) (expr : Expr κ) : List κ :=
  recurse (fun node below =>
    ((rebuildCall? node (node.children.map (substitute replacement))).map Call.computes).getD [] ++
      below.flatten) expr

theorem substituteComputes_eq (replacement : Atom → Option (Expr κ)) (expr : Expr κ) :
    substituteComputes replacement expr =
      ((rebuildCall? expr (expr.children.map (substitute replacement))).map
        Call.computes).getD [] ++ expr.children.flatMap (substituteComputes replacement) := by
  rw [substituteComputes, recurse_eq, List.flatMap_def]
  rfl

theorem Admits.substituted {allowed : κ → Prop} (admits : Admits allowed)
    {replacement : Atom → Option (Expr κ)} {expr : Expr κ} (holds : expr.HoldsOnly allowed)
    (replacements : ∀ symbol value, replacement symbol = some value → value.HoldsOnly allowed)
    (computed : ∀ value ∈ substituteComputes replacement expr, allowed value) :
    (expr.substitute replacement).HoldsOnly allowed := by
  induction expr using induct with
  | step expr ih =>
      rw [substituteComputes_eq] at computed
      obtain ⟨here, below⟩ := List.forall_mem_append.mp computed
      cases found : expr.asAtom? with
      | some symbol =>
          have shape := asAtom?_eq_some.mp found
          rw [shape, substitute_atom, replacementOf]
          cases replaced : replacement symbol with
          | none => exact shape ▸ holds
          | some value => exact replacements symbol value replaced
      | none =>
          rw [substitute_compound replacement found, rebuild_eq_call]
          cases built : rebuildCall? expr (expr.children.map (substitute replacement)) with
          | none => exact holds
          | some call =>
              rw [built] at here
              refine admits.result call ?_ here
              rw [operands_rebuildCall built]
              refine List.forall_mem_map.mpr fun child member => ?_
              exact ih child member (holds.child member) fun value inside =>
                below value (List.mem_flatMap.mpr ⟨child, member, inside⟩)

class FiniteUnits (κ : Type) [Scalar κ] : Prop where
  isFinite_zero : Scalar.isFinite (0 : κ) = true
  isFinite_one : Scalar.isFinite (1 : κ) = true

instance : FiniteUnits RealNumber := ⟨rfl, rfl⟩

instance : FiniteUnits Float := ⟨by decide, by decide⟩

/-- All numbers that occur are finite. -/
def AllFinite (expr : Expr κ) : Prop := expr.HoldsOnly fun value => Scalar.isFinite value = true

theorem allFinite_num {value : κ} : (num value).AllFinite ↔ Scalar.isFinite value = true :=
  holdsOnly_num

theorem admits_finite [FiniteUnits κ] : Admits fun value : κ => Scalar.isFinite value = true where
  zero := FiniteUnits.isFinite_zero
  one := FiniteUnits.isFinite_one
  finite _ := id

theorem admits_finite_or [FiniteUnits κ] (computed : List κ) :
    Admits fun value : κ => Scalar.isFinite value = true ∨ value ∈ computed where
  zero := Or.inl FiniteUnits.isFinite_zero
  one := Or.inl FiniteUnits.isFinite_one
  finite _ := Or.inl

/-- Of finite operands a constructor builds an expression in which every number is finite, but for the
sums, products and angles of numbers that it computes; and so does a substitution. A function and a
choice compute none of these, and an angle no number that is not finite if the angles of finite
numbers are. -/
theorem finite_or_computed [FiniteUnits κ] :
    (∀ call : Call κ, (∀ operand ∈ call.operands, operand.AllFinite) →
      call.result.HoldsOnly fun value => Scalar.isFinite value = true ∨ value ∈ call.computes) ∧
    (∀ (replacement : Atom → Option (Expr κ)) (expr : Expr κ), expr.AllFinite →
      (∀ symbol value, replacement symbol = some value → value.AllFinite) →
      (expr.substitute replacement).HoldsOnly fun value =>
        Scalar.isFinite value = true ∨ value ∈ substituteComputes replacement expr) ∧
    (∀ (function : Elementary) (argument : Expr κ), argument.AllFinite →
      (apply function argument).AllFinite) ∧
    (∀ (relation : Relation) (left right chosen otherwise : Expr κ),
      (∀ operand ∈ [left, right, chosen, otherwise], operand.AllFinite) →
      (choose relation left right chosen otherwise).AllFinite) ∧
    ((∀ y x : κ, Scalar.isFinite y = true → Scalar.isFinite x = true →
      Scalar.isFinite (Scalar.angle y x) = true) →
      ∀ y x : Expr κ, y.AllFinite → x.AllFinite → (angleOf y x).AllFinite) := by
  refine ⟨?_, ?_, ?_, ?_, ?_⟩
  · intro call finite
    exact (admits_finite_or call.computes).result call
      (fun operand member => (finite operand member).mono fun _ => Or.inl) fun _ => Or.inr
  · intro replacement expr finite replacements
    refine (admits_finite_or _).substituted (finite.mono fun _ => Or.inl) ?_ fun _ => Or.inr
    exact fun symbol value replaced => (replacements symbol value replaced).mono fun _ => Or.inl
  · intro function argument finite
    exact admits_finite.result (.apply function argument)
      (List.forall_mem_singleton.mpr finite) nofun
  · intro relation left right chosen otherwise finite
    exact admits_finite.result (.choose relation left right chosen otherwise) finite nofun
  · intro angles y x first second
    unfold angleOf
    split
    · exact admits_finite.number
        (angles _ _ (allFinite_num.mp first) (allFinite_num.mp second))
    · exact (holdsOnly_compound rfl).mpr
        (List.forall_mem_cons.mpr ⟨first, List.forall_mem_singleton.mpr second⟩)

namespace Large

def x : Atom := .whole ⟨1, "x", .scalar, .real⟩

def terms : List (Expr Float) := [num 1e308, mul [num 0.5, atom x], num (-1e308), num 1.5]

def factors : List (Expr Float) := [num 1e200, num 1e200, num 0]

theorem allFinite_terms : ∀ term ∈ terms, term.AllFinite := by
  have half : (mul [num 0.5, atom x] : Expr Float).AllFinite := by
    refine (holdsOnly_compound rfl).mpr (List.forall_mem_cons.mpr
      ⟨allFinite_num.mpr (by decide), List.forall_mem_singleton.mpr ?_⟩)
    exact (holdsOnly_compound rfl).mpr nofun
  simp only [terms, List.forall_mem_cons, allFinite_num]
  exact ⟨by decide +kernel, half, by decide +kernel, by decide, nofun⟩

/-- Large numbers that cancel. -/
theorem sum_stays_finite : (∀ term ∈ terms, term.AllFinite) ∧
    (Call.sum terms).computes.all Scalar.isFinite = true ∧ (sum terms).AllFinite := by
  have computed : (Call.sum terms).computes.all Scalar.isFinite = true := by decide +kernel
  refine ⟨allFinite_terms, computed, ?_⟩
  refine (finite_or_computed.1 (.sum terms) allFinite_terms).mono fun value either => ?_
  exact either.elim id (List.all_eq_true.mp computed value)

/-- The large numbers are multiplied before the zero is met. -/
theorem product_overflows : (∀ factor ∈ factors, factor.AllFinite) ∧
    ¬ (product factors).AllFinite := by
  constructor
  · simp only [factors, List.forall_mem_cons, allFinite_num]
    exact ⟨by decide +kernel, by decide +kernel, by decide, nofun⟩
  · have folded : product factors = number ([1e200, 1e200, 0].foldl (· * ·) 1) :=
      product_numbers [1e200, 1e200, 0]
    rw [folded, number, allFinite_num]
    decide +kernel

end Large

end Expr

end Mechanism
