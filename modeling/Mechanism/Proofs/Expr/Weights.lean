import Mathlib.Algebra.Order.BigOperators.Group.List
import Mathlib.Algebra.Order.Group.Nat
import Mathlib.Algebra.BigOperators.Group.List.Basic
import Mathlib.Algebra.GroupWithZero.Nat
import Mechanism.Expr.Reading
import Mechanism.Proofs.Grouping

/-!
Weights of expressions. A weight gives numbers nothing, and adds up over the operands of sums,
products and powers. The canonical constructors rearrange what they are given and drop some of it,
but never write anything twice, so their results weigh no more than their operands.
-/

namespace Mechanism.Expr

variable {κ : Type} [Scalar κ]

theorem induct {motive : Expr κ → Prop}
    (step : ∀ expr : Expr κ, (∀ child ∈ expr.children, motive child) → motive expr)
    (expr : Expr κ) : motive expr :=
  step expr fun child _ => induct step child
termination_by sizeOf expr
decreasing_by exact sizeOf_lt_of_mem_children ‹_›

theorem addendsOf_eq (terms : List (Expr κ)) : addendsOf terms = terms.flatMap addends := by
  induction terms with
  | nil => rfl
  | cons head tail ih => simp [addendsOf, ih]

theorem factorsOf_eq (operands : List (Expr κ)) : factorsOf operands = operands.flatMap factors := by
  induction operands with
  | nil => rfl
  | cons head tail ih => simp [factorsOf, ih]

structure Weight (weight : Expr κ → Nat) : Prop where
  num : ∀ value, weight (num value) = 0
  add : ∀ terms, weight (add terms) = (terms.map weight).sum
  mul : ∀ operands, weight (mul operands) = (operands.map weight).sum
  pow : ∀ base exponent, weight (pow base exponent) = weight base + weight exponent

def weightIn (weight : Expr κ → Nat) (exprs : List (Expr κ)) : Nat := (exprs.map weight).sum

section

variable (weight : Expr κ → Nat)

@[simp] theorem weightIn_nil : weightIn weight [] = 0 := rfl

@[simp] theorem weightIn_cons (head : Expr κ) (tail : List (Expr κ)) :
    weightIn weight (head :: tail) = weight head + weightIn weight tail := by
  simp [weightIn]

@[simp] theorem weightIn_append (left right : List (Expr κ)) :
    weightIn weight (left ++ right) = weightIn weight left + weightIn weight right := by
  simp [weightIn]

theorem weightIn_perm {left right : List (Expr κ)} (perm : left.Perm right) :
    weightIn weight left = weightIn weight right :=
  (perm.map _).sum_eq

theorem weightIn_sublist {left right : List (Expr κ)} (sublist : left.Sublist right) :
    weightIn weight left ≤ weightIn weight right :=
  (sublist.map _).sum_le_sum (by simp)

theorem weightIn_flatMap (parts : Expr κ → List (Expr κ)) (exprs : List (Expr κ))
    (same : ∀ expr ∈ exprs, weightIn weight (parts expr) = weight expr) :
    weightIn weight (exprs.flatMap parts) = weightIn weight exprs := by
  rw [weightIn, Grouping.sum_map_flatMap]
  exact congrArg List.sum (List.map_congr_left same)

theorem weightIn_symbolicIn_le (operands : List (Expr κ)) :
    weightIn weight (symbolicIn operands) ≤ weightIn weight operands :=
  weightIn_sublist weight List.filter_sublist

end

namespace Weight

variable {weight : Expr κ → Nat} (laws : Weight weight)

include laws

theorem number (value : κ) : weight (Expr.number value) = 0 := laws.num _

theorem zero : weight Expr.zero = 0 := laws.num _

theorem one : weight Expr.one = 0 := laws.num _

theorem sum_eq (terms : List (Expr κ)) : weight (Expr.add terms) = weightIn weight terms :=
  laws.add terms

theorem product_eq (operands : List (Expr κ)) :
    weight (Expr.mul operands) = weightIn weight operands :=
  laws.mul operands

theorem of_asNumber? {expr : Expr κ} {value : κ} (numeric : expr.asNumber? = some value) :
    weight expr = 0 := by
  cases expr <;> simp_all [asNumber?, laws.num]

theorem addends (expr : Expr κ) : weightIn weight expr.addends = weight expr := by
  induction expr using induct with
  | step expr ih =>
      cases expr with
      | add terms =>
          rw [Expr.addends, addendsOf_eq, laws.sum_eq]
          exact weightIn_flatMap weight Expr.addends terms ih
      | _ => simp [Expr.addends]

theorem factors (expr : Expr κ) : weightIn weight expr.factors = weight expr := by
  induction expr using induct with
  | step expr ih =>
      cases expr with
      | mul operands =>
          rw [Expr.factors, factorsOf_eq, laws.product_eq]
          exact weightIn_flatMap weight Expr.factors operands ih
      | _ => simp [Expr.factors]

theorem addendsOf (terms : List (Expr κ)) :
    weightIn weight (Expr.addendsOf terms) = weightIn weight terms := by
  rw [addendsOf_eq]
  exact weightIn_flatMap weight Expr.addends terms fun term _ => laws.addends term

theorem factorsOf (operands : List (Expr κ)) :
    weightIn weight (Expr.factorsOf operands) = weightIn weight operands := by
  rw [factorsOf_eq]
  exact weightIn_flatMap weight Expr.factors operands fun operand _ => laws.factors operand

theorem splitCoefficient (term : Expr κ) : weight term.splitCoefficient.2 = weight term := by
  unfold Expr.splitCoefficient
  split <;> simp [laws.num, laws.one, laws.product_eq]

theorem baseAndExponent (factor : Expr κ) :
    weight factor.baseAndExponent.1 + weight factor.baseAndExponent.2 = weight factor := by
  unfold Expr.baseAndExponent
  split
  · rw [laws.pow]
  · rw [laws.one, Nat.add_zero]

theorem likeTerms_le (terms : List (Expr κ)) :
    weightIn weight ((likeTerms terms).map (·.1)) ≤ weightIn weight terms := by
  have keys : (likeTerms terms).map (·.1) =
      Grouping.distinct (terms.map fun term => term.splitCoefficient.2) := by
    simp [likeTerms, Grouping.ofPairs_eq, Function.comp_def]
  have same : weightIn weight (terms.map fun term => term.splitCoefficient.2) =
      weightIn weight terms := by
    simp [weightIn, Function.comp_def, laws.splitCoefficient]
  rw [keys, ← same]
  exact weightIn_sublist weight (Grouping.distinct_sublist _)

theorem likeBases_le (operands : List (Expr κ)) :
    ((likeBases operands).map fun entry => weight entry.1 + weightIn weight entry.2).sum ≤
      weightIn weight operands := by
  let pairs := operands.map Expr.baseAndExponent
  let keys := Grouping.distinct (pairs.map (·.1))
  have exponents : (keys.map fun key => weightIn weight (Grouping.valuesOf key pairs)).sum =
      (pairs.map fun pair => weight pair.2).sum := by
    exact Grouping.sum_groups pairs fun pair => weight pair.2
  have bases : (keys.map weight).sum ≤ (pairs.map fun pair => weight pair.1).sum := by
    have shorter := weightIn_sublist weight (Grouping.distinct_sublist (pairs.map (·.1)))
    simpa [weightIn, keys, Function.comp_def] using shorter
  have whole : weightIn weight operands =
      (pairs.map fun pair => weight pair.1).sum + (pairs.map fun pair => weight pair.2).sum := by
    rw [← List.sum_map_add]
    simp [weightIn, pairs, Function.comp_def, laws.baseAndExponent]
  rw [likeBases, Grouping.ofPairs_eq, List.map_map, whole, ← exponents]
  simp only [Function.comp_def]
  rw [List.sum_map_add]
  exact Nat.add_le_add_right bases _

theorem pieces (power : Expr κ) : weightIn weight (Expr.pieces power) = weight power := by
  cases power <;> simp [Expr.pieces, laws.product_eq]

theorem ofTerms (terms : List (Expr κ)) : weight (Expr.ofTerms terms) = weightIn weight terms := by
  unfold Expr.ofTerms
  split
  · exact laws.zero
  · simp
  · rw [laws.sum_eq, weightIn_perm weight (arrange_perm _)]

theorem ofFactors_le (coefficient : κ) (operands : List (Expr κ)) :
    weight (ofFactors coefficient operands) ≤ weightIn weight operands := by
  have sorted := weightIn_perm weight (arrange_perm operands)
  unfold ofFactors
  split
  · rw [laws.zero]
    exact Nat.zero_le _
  · generalize arrange operands = arranged at sorted
    split
    · rw [laws.number]
      exact Nat.zero_le _
    · simp only [weightIn_cons, weightIn_nil] at sorted
      omega
    · rw [laws.product_eq]
      omega
    · rw [laws.product_eq, weightIn_cons, laws.number]
      omega

omit laws in
/-- One round of the canonical constructors weighs no more than its operands. -/
structure Bounds (weight : Expr κ → Nat) (fuel : Nat) : Prop where
  sum : ∀ terms : List (Expr κ), weight (sumWith fuel terms) ≤ weightIn weight terms
  product : ∀ operands : List (Expr κ),
    weight (productWith fuel operands) ≤ weightIn weight operands
  power : ∀ base exponent : Expr κ,
    weight (powerWith fuel base exponent) ≤ weight base + weight exponent

theorem scaledTerms_le {fuel : Nat} (bounds : Bounds weight fuel) (groups : List (Expr κ × κ)) :
    weightIn weight (groups.filterMap (scaledTerm? (productWith fuel))) ≤
      weightIn weight (groups.map (·.1)) := by
  induction groups with
  | nil => simp
  | cons head tail ih =>
      obtain ⟨rest, coefficient⟩ := head
      have scaled := bounds.product [Expr.number coefficient, rest]
      simp only [weightIn_cons, laws.number, weightIn_nil] at scaled
      simp only [List.filterMap_cons, List.map_cons, weightIn_cons, scaledTerm?]
      by_cases vanishes : Scalar.isZero coefficient
      · simp only [vanishes, ↓reduceIte]
        omega
      · by_cases single : Scalar.isOne coefficient <;>
          · simp only [vanishes, single, ↓reduceIte, weightIn_cons, Bool.false_eq_true]
            omega

theorem sum_succ {fuel : Nat} (bounds : Bounds weight fuel) (terms : List (Expr κ)) :
    weight (sumWith (fuel + 1) terms) ≤ weightIn weight terms := by
  have leaves := weightIn_symbolicIn_le weight (Expr.addendsOf terms)
  rw [laws.addendsOf] at leaves
  have likes := laws.likeTerms_le (symbolicIn (Expr.addendsOf terms))
  have scaled := laws.scaledTerms_le bounds (likeTerms (symbolicIn (Expr.addendsOf terms)))
  rw [sumWith, laws.ofTerms, weightIn_append]
  have constantFree : ∀ constant : κ, weightIn weight
      (if Scalar.isZero constant then [] else [Expr.number constant]) = 0 := by
    intro constant
    split <;> simp [laws.number]
  rw [constantFree]
  omega

theorem product_succ {fuel : Nat} (bounds : Bounds weight fuel) (operands : List (Expr κ)) :
    weight (productWith (fuel + 1) operands) ≤ weightIn weight operands := by
  have leaves := weightIn_symbolicIn_le weight (Expr.factorsOf operands)
  rw [laws.factorsOf] at leaves
  have likes := laws.likeBases_le (symbolicIn (Expr.factorsOf operands))
  rw [productWith]
  generalize likeBases (symbolicIn (Expr.factorsOf operands)) = groups at likes
  have powers : weightIn weight (groups.map fun group =>
      powerWith fuel group.1 (sumWith fuel group.2)) ≤ weightIn weight operands := by
    refine le_trans ?_ (likes.trans leaves)
    rw [weightIn, List.map_map]
    apply List.sum_le_sum
    intro group _
    have raised := bounds.power group.1 (sumWith fuel group.2)
    have summed := bounds.sum group.2
    simp only [Function.comp_apply]
    omega
  simp only
  generalize groups.map _ = raised at powers
  have flat := weightIn_flatMap weight Expr.pieces raised fun power _ => laws.pieces power
  have remaining := weightIn_symbolicIn_le weight (raised.flatMap Expr.pieces)
  split
  · rw [laws.zero]
    exact Nat.zero_le _
  · refine le_trans (laws.ofFactors_le _ _) ?_
    omega

theorem power_succ {fuel : Nat} (bounds : Bounds weight fuel) (base exponent : Expr κ) :
    weight (powerWith (fuel + 1) base exponent) ≤ weight base + weight exponent := by
  unfold powerWith
  split
  · simp [laws.one]
  split
  · omega
  split
  · simp [laws.number]
  split
  · rename_i inner innerExponent _ _
    have raised := bounds.power inner (productWith fuel [innerExponent, exponent])
    have multiplied := bounds.product [innerExponent, exponent]
    simp only [weightIn_cons, weightIn_nil] at multiplied
    rw [laws.pow]
    omega
  · rename_i operands numeric _
    obtain ⟨value, isNumber, _⟩ := Option.bind_eq_some_iff.mp numeric
    have plain : weight exponent = 0 := laws.of_asNumber? isNumber
    have factorwise : weightIn weight (operands.map fun factor => powerWith fuel factor exponent) ≤
        weightIn weight operands := by
      rw [weightIn, List.map_map]
      apply List.sum_le_sum
      intro factor _
      have raised := bounds.power factor exponent
      simp only [Function.comp_apply]
      omega
    have multiplied := bounds.product (operands.map fun factor => powerWith fuel factor exponent)
    rw [laws.product_eq]
    omega
  · split
    · simp [laws.one]
    · rw [laws.pow]

theorem bounds (fuel : Nat) : Bounds weight fuel := by
  induction fuel with
  | zero =>
      constructor
      · intro terms
        rw [sumWith, laws.sum_eq]
      · intro operands
        rw [productWith, laws.product_eq]
      · intro base exponent
        rw [powerWith, laws.pow]
  | succ fuel ih => exact ⟨laws.sum_succ ih, laws.product_succ ih, laws.power_succ ih⟩

theorem sum_le (terms : List (Expr κ)) : weight (Expr.sum terms) ≤ weightIn weight terms :=
  (laws.bounds _).sum terms

theorem product_le (operands : List (Expr κ)) :
    weight (Expr.product operands) ≤ weightIn weight operands :=
  (laws.bounds _).product operands

theorem power_le (base exponent : Expr κ) :
    weight (Expr.power base exponent) ≤ weight base + weight exponent :=
  (laws.bounds _).power base exponent

end Weight

theorem length_eq_four {α : Type} {items : List α} (four : items.length = 4) :
    ∃ first second third fourth, items = [first, second, third, fourth] := by
  rcases items with _ | ⟨first, rest⟩
  · cases four
  obtain ⟨second, third, fourth, rfl⟩ := List.length_eq_three.mp (Nat.succ.inj four)
  exact ⟨first, second, third, fourth, rfl⟩

/-- A function, an angle or a choice weighs no more over lighter operands, and a choice no less
than either of its branches. -/
structure SteadyWeight (weight : Expr κ → Nat) : Prop extends Weight weight where
  call_mono : ∀ {function argument other}, weight argument ≤ weight other →
    weight (call function argument) ≤ weight (call function other)
  angle_mono : ∀ {y x other another}, weight y ≤ weight other → weight x ≤ weight another →
    weight (angle y x) ≤ weight (angle other another)
  cond_mono : ∀ {relation left right chosen otherwise left' right' chosen' otherwise'},
    weight left ≤ weight left' → weight right ≤ weight right' →
    weight chosen ≤ weight chosen' → weight otherwise ≤ weight otherwise' →
    weight (cond relation left right chosen otherwise) ≤
      weight (cond relation left' right' chosen' otherwise')
  branches_le : ∀ relation left right chosen otherwise,
    max (weight chosen) (weight otherwise) ≤ weight (cond relation left right chosen otherwise)

namespace SteadyWeight

variable {weight : Expr κ → Nat} (laws : SteadyWeight weight)

include laws

theorem apply_le (function : Elementary) (argument : Expr κ) :
    weight (Expr.apply function argument) ≤ weight (Expr.call function argument) := by
  unfold Expr.apply
  simp only
  split
  · simp [laws.number]
  · exact le_rfl

theorem angleOf_le (y x : Expr κ) : weight (Expr.angleOf y x) ≤ weight (Expr.angle y x) := by
  unfold Expr.angleOf
  split
  · simp [laws.number]
  · exact le_rfl

theorem choose_le (relation : Relation) (left right chosen otherwise : Expr κ) :
    weight (Expr.choose relation left right chosen otherwise) ≤
      weight (Expr.cond relation left right chosen otherwise) := by
  have either := laws.branches_le relation left right chosen otherwise
  unfold Expr.choose
  split
  · split <;> omega
  · split <;> omega

theorem rebuild_le {expr : Expr κ} {operands : List (Expr κ)}
    (lighter : List.Forall₂ (fun operand child => weight operand ≤ weight child) operands
      expr.children) :
    weight (expr.rebuild operands) ≤ weight expr := by
  have together : weightIn weight operands ≤ weightIn weight expr.children :=
    (List.Forall₂.sum_le_sum (List.forall₂_map_left_iff.mpr
      (List.forall₂_map_right_iff.mpr lighter)))
  cases expr with
  | num => exact le_rfl
  | atom => exact le_rfl
  | add terms => exact (laws.sum_le operands).trans (together.trans_eq (laws.sum_eq terms).symm)
  | mul factors =>
      exact (laws.product_le operands).trans (together.trans_eq (laws.product_eq factors).symm)
  | pow base exponent =>
      match operands, lighter with
      | [_, _], .cons first (.cons second .nil) =>
          rw [laws.pow]
          exact (laws.power_le _ _).trans (Nat.add_le_add first second)
  | call function argument =>
      match operands, lighter with
      | [_], .cons first .nil => exact (laws.apply_le function _).trans (laws.call_mono first)
  | angle y x =>
      match operands, lighter with
      | [_, _], .cons first (.cons second .nil) =>
          exact (laws.angleOf_le _ _).trans (laws.angle_mono first second)
  | cond relation left right chosen otherwise =>
      match operands, lighter with
      | [_, _, _, _], .cons first (.cons second (.cons third (.cons fourth .nil))) =>
          exact (laws.choose_le relation _ _ _ _).trans (laws.cond_mono first second third fourth)

end SteadyWeight

end Mechanism.Expr
