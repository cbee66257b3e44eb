import Mechanism.Proofs.Expr.Calls
import Mechanism.Proofs.Simplifier

/-!
Terms `T * sin(x)^2` and `T * cos(x)^2`, for whatever `T` and `x`, and which of them the loop of the
basic simplifier finds. It looks for a factor `sin(x)^2`. In a canonical sum it finds all of them but
those of a `T` that has a power of `sin(x)` itself: there the square is no factor any more.
-/

namespace Mechanism

namespace Ordering

variable {α : Type} {before : α → α → Bool}

theorem place_eq (item : α) (items : List α) :
    ∃ front back, place before item items = front ++ item :: back ∧ front ++ back = items := by
  induction items with
  | nil => exact ⟨[], [], rfl, rfl⟩
  | cons head tail ih =>
      unfold place
      split
      · obtain ⟨front, back, placed, rfl⟩ := ih
        exact ⟨head :: front, back, congrArg (head :: ·) placed, rfl⟩
      · exact ⟨[], head :: tail, rfl, rfl⟩

theorem Weak.place_inside (weak : Weak before) (item added : α) {front back : List α}
    (sorted : Sorted before (front ++ added :: back)) :
    ∃ left right, place before item (front ++ added :: back) = left ++ added :: right ∧
      left ++ right = place before item (front ++ back) := by
  induction front with
  | nil =>
      have behind := (List.pairwise_cons.mp sorted).1
      rw [List.nil_append, List.nil_append, place]
      split
      · exact ⟨[], place before item back, rfl, rfl⟩
      · rename_i notEarlier
        refine ⟨[item], back, rfl, ?_⟩
        cases back with
        | nil => rfl
        | cons next rest =>
            have after := weak.trans (Bool.not_eq_true _ ▸ notEarlier)
              (behind next List.mem_cons_self)
            rw [place, after]
            rfl
  | cons head tail ih =>
      rw [List.cons_append, List.cons_append, place, place]
      split
      · obtain ⟨left, right, placed, same⟩ := ih (List.pairwise_cons.mp sorted).2
        exact ⟨head :: left, right, congrArg (head :: ·) placed, congrArg (head :: ·) same⟩
      · exact ⟨item :: head :: tail, back, rfl, rfl⟩

theorem Weak.sort_inside (weak : Weak before) (front : List α) (added : α) (back : List α) :
    ∃ left right, sort before (front ++ added :: back) = left ++ added :: right ∧
      left ++ right = sort before (front ++ back) := by
  induction front with
  | nil => exact place_eq added (sort before back)
  | cons head tail ih =>
      obtain ⟨left, right, placed, same⟩ := ih
      have sorted := weak.sorted_sort (tail ++ added :: back)
      rw [placed] at sorted
      rw [List.cons_append, List.cons_append, sort, sort, placed, ← same]
      exact weak.place_inside head added sorted

end Ordering

namespace Expr

variable {κ : Type} [Scalar κ]

theorem product_congr {left right : List (Expr κ)}
    (coefficient : (numbersIn (factorsOf left)).foldl (· * ·) 1 =
      (numbersIn (factorsOf right)).foldl (· * ·) 1)
    (leaves : symbolicIn (factorsOf left) = symbolicIn (factorsOf right)) :
    product left = product right := by
  have here := Call.result_step (.product left)
  have there := Call.result_step (.product right)
  simp only [Call.step] at here there
  rw [coefficient, leaves, ← there] at here
  exact here

theorem foldl_mul_single [Neutral κ] (value : κ) : [value].foldl (· * ·) 1 = value :=
  Neutral.one_mul value

theorem Canonical.sorted_factors {expr : Expr κ} (canonical : expr.Canonical) :
    Sorted expr.factors ∧ (numbersIn expr.factors).length ≤ 1 := by
  cases expr with
  | mul operands =>
      have settled : SettledProduct operands := canonical.settled
      rw [Expr.factors, factorsOf_eq_self settled.flat]
      exact ⟨settled.ordered, settled.single⟩
  | num => exact ⟨List.pairwise_singleton _ _, le_rfl⟩
  | _ => exact ⟨List.pairwise_singleton _ _, Nat.zero_le 1⟩

theorem Canonical.factors_eq {expr : Expr κ} (canonical : expr.Canonical) :
    expr.factors = (numbersIn expr.factors).map num ++ symbolicIn expr.factors :=
  sorted_eq_append canonical.sorted_factors.1 canonical.sorted_factors.2

theorem Canonical.factorsOf_eq {expr : Expr κ} (canonical : expr.Canonical) :
    factorsOf expr.factors = expr.factors :=
  factorsOf_eq_self fun factor member => (canonical.factors factor member).2

theorem symbolicIn_middle (front : List (Expr κ)) {leaf : Expr κ} (symbolic : leaf.asNumber? = none)
    (back : List (Expr κ)) :
    symbolicIn (front ++ leaf :: back) = symbolicIn front ++ leaf :: symbolicIn back := by
  rw [symbolicIn_append, symbolicIn, symbolicIn, List.filter_cons, symbolic]
  rfl

theorem numbersIn_middle (front : List (Expr κ)) {leaf : Expr κ} (symbolic : leaf.asNumber? = none)
    (back : List (Expr κ)) : numbersIn (front ++ leaf :: back) = numbersIn (front ++ back) := by
  rw [numbersIn_append, numbersIn_append, numbersIn, numbersIn, List.filterMap_cons, symbolic]
  rfl

theorem product_insert [Neutral κ] {front back : List (Expr κ)} {leaf : Expr κ}
    (canonical : ∀ factor ∈ front ++ back, factor.Canonical ∧ factor.label ≠ .mul)
    (unlike : ((symbolicIn (front ++ back)).map fun factor => factor.baseAndExponent.1).Nodup)
    (leafCanonical : leaf.Canonical) (flat : leaf.label ≠ .mul) (symbolic : leaf.asNumber? = none)
    (apart : ∀ factor ∈ front ++ back, factor.baseAndExponent.1 ≠ leaf.baseAndExponent.1) :
    product (front ++ leaf :: back) = ofFactors ((numbersIn (front ++ back)).foldl (· * ·) 1)
      (symbolicIn front ++ leaf :: symbolicIn back) := by
  have inside (factor : Expr κ) (member : factor ∈ front ++ leaf :: back) :
      factor.Canonical ∧ factor.label ≠ .mul := by
    rcases List.mem_cons.mp (List.perm_middle.mem_iff.mp member) with rfl | other
    · exact ⟨leafCanonical, flat⟩
    · exact canonical factor other
  have leaves : factorsOf (front ++ leaf :: back) = front ++ leaf :: back :=
    factorsOf_eq_self fun factor member => (inside factor member).2
  rw [product_unlike fun factor member => (inside factor member).1, leaves,
    symbolicIn_middle front symbolic, numbersIn_middle front symbolic]
  rw [leaves, symbolicIn_middle front symbolic, (List.perm_middle.map _).nodup_iff,
    ← symbolicIn_append, List.map_cons, List.nodup_cons]
  refine ⟨fun again => ?_, unlike⟩
  obtain ⟨factor, member, same⟩ := List.mem_map.mp again
  exact apart factor (List.mem_filter.mp member).1 same

theorem product_pair {rest leaf : Expr κ} {others : List (Expr κ)}
    (coefficient : (numbersIn others).foldl (· * ·) 1 = (numbersIn rest.factors).foldl (· * ·) 1)
    (leaves : symbolicIn others = symbolicIn rest.factors)
    (flat : ∀ factor ∈ others, factor.label ≠ .mul) (leafFlat : leaf.label ≠ .mul)
    (symbolic : leaf.asNumber? = none) : product [rest, leaf] = product (others ++ [leaf]) := by
  have here : factorsOf [rest, leaf] = rest.factors ++ [leaf] := by
    rw [factorsOf, factorsOf, factorsOf, factors_eq_self leafFlat]
    rfl
  have there : factorsOf (others ++ [leaf]) = others ++ [leaf] :=
    factorsOf_eq_self (List.forall_mem_append.mpr ⟨flat, List.forall_mem_singleton.mpr leafFlat⟩)
  refine product_congr ?_ ?_
  · rw [here, there, numbersIn_middle _ symbolic, numbersIn_middle _ symbolic, List.append_nil,
      List.append_nil, coefficient]
  · rw [here, there, symbolicIn_append, symbolicIn_append, leaves]

theorem Unscaled.ofFactors_eq {rest : Expr κ} (unscaled : rest.Unscaled) {coefficient : κ}
    (nonzero : Scalar.isZero coefficient = false) :
    ofFactors coefficient rest.factors =
      if Scalar.isOne coefficient then rest else scaledBy coefficient rest := by
  rw [ofFactors, nonzero, if_neg Bool.false_ne_true, arrange,
    Ordering.Sorted.sort_eq unscaled.sorted_factors, number_of_nonzero nonzero, scaledBy]
  cases rest with
  | mul operands =>
      have settled : SettledProduct operands := unscaled.canonical.settled
      rw [factors, factorsOf_eq_self settled.flat]
      have several := settled.several
      rcases operands with _ | ⟨_, _ | ⟨_, _⟩⟩
      · exact absurd several (by simp)
      · exact absurd several (by simp)
      · cases Scalar.isOne coefficient <;> rfl
  | _ => cases Scalar.isOne coefficient <;> rfl

theorem Canonical.proper_factors {expr : Expr κ} (canonical : expr.Canonical)
    (several : 2 ≤ expr.factors.length) : ∀ value ∈ numbersIn expr.factors,
      Scalar.isZero value = false ∧ Scalar.isOne value = false := by
  cases expr with
  | mul operands =>
      have settled : SettledProduct operands := canonical.settled
      rw [Expr.factors, factorsOf_eq_self settled.flat]
      exact settled.proper
  | _ => exact absurd several (by simp [Expr.factors])

theorem Canonical.nonzero_coefficient [Neutral κ] {expr : Expr κ} (canonical : expr.Canonical)
    (nonzero : expr.isZero = false) :
    Scalar.isZero ((numbersIn expr.factors).foldl (· * ·) 1) = false := by
  cases expr with
  | num value => rwa [show numbersIn (num value).factors = [value] from rfl, foldl_mul_single]
  | mul operands =>
      have settled : SettledProduct operands := canonical.settled
      rw [Expr.factors, factorsOf_eq_self settled.flat]
      have single := settled.single
      have proper := settled.proper
      generalize numbersIn operands = numbers at single proper
      rcases numbers with _ | ⟨value, _ | ⟨_, _⟩⟩
      · exact Neutral.isZero_one
      · rw [foldl_mul_single]
        exact (proper value List.mem_cons_self).1
      · exact absurd single (by simp)
  | _ => exact Neutral.isZero_one

theorem ofFactors_single [Neutral κ] (factor : Expr κ) : ofFactors 1 [factor] = factor := by
  have alone : arrange [factor] = [factor] := rfl
  rw [ofFactors, alone, Neutral.isZero_one, Neutral.isOne_one]
  rfl

theorem Canonical.product_factors [Neutral κ] {expr : Expr κ} (canonical : expr.Canonical)
    (symbolic : expr.asNumber? = none) : product expr.factors = expr := by
  by_cases isProduct : expr.label = .mul
  · cases expr with
    | mul operands =>
        rw [Expr.factors, factorsOf_eq_self (SettledProduct.flat canonical.settled)]
        exact canonical.rebuild_eq
    | _ => cases isProduct
  · have leaf : symbolicIn [expr] = [expr] :=
      symbolicIn_eq_self (List.forall_mem_singleton.mpr symbolic)
    have none : numbersIn [expr] = [] := numbersIn_eq_nil (List.forall_mem_singleton.mpr symbolic)
    rw [factors_eq_self isProduct, product_unlike (List.forall_mem_singleton.mpr canonical),
      factorsOf_eq_self (List.forall_mem_singleton.mpr isProduct), leaf, none]
    · exact ofFactors_single expr
    · rw [factorsOf_eq_self (List.forall_mem_singleton.mpr isProduct), leaf]
      exact List.nodup_singleton _

theorem Canonical.exists_rest [Neutral κ] {expr leaf : Expr κ} (canonical : expr.Canonical)
    {front back : List (Expr κ)} (split : expr.factors = front ++ leaf :: back) :
    ∃ rest : Expr κ, rest.Canonical ∧
      (rest.factors = front ++ back ∨ rest = one ∧ front ++ back = []) := by
  have fewer : (front ++ back).Sublist expr.factors :=
    split ▸ List.Sublist.append_left (List.sublist_cons_self leaf back) front
  have length : expr.factors.length = (front ++ back).length + 1 := by
    rw [split]
    simp only [List.length_append, List.length_cons]
    omega
  have inside (factor : Expr κ) (member : factor ∈ front ++ back) :
      factor.Canonical ∧ factor.label ≠ .mul := canonical.factors factor (fewer.subset member)
  generalize front ++ back = others at fewer length inside
  match others with
  | [] => exact ⟨one, canonical_one, Or.inr ⟨rfl, rfl⟩⟩
  | [factor] =>
      obtain ⟨factorCanonical, flat⟩ := inside factor List.mem_cons_self
      exact ⟨factor, factorCanonical, Or.inl (factors_eq_self flat)⟩
  | first :: second :: more =>
      have flat := fun factor member => (inside factor member).2
      refine ⟨mul (first :: second :: more), .node ?_ fun factor member => (inside factor member).1,
        Or.inl (factorsOf_eq_self flat)⟩
      exact {
        several := by simp
        ordered := canonical.sorted_factors.1.sublist fewer
        flat := flat
        single := (fewer.filterMap _).length_le.trans canonical.sorted_factors.2
        proper := fun value member => canonical.proper_factors
          (by rw [length]; exact Nat.le_add_left _ _) value ((fewer.filterMap _).subset member)
        unlike := ((fewer.filter _).map _).nodup (unlike_factors canonical) }

/-- A term is an expression with another number in front: it is zero, or both are numbers, or both are
like terms. -/
inductive Renumbered : Expr κ → Expr κ → Prop where
  | zero {rest : Expr κ} : Renumbered rest zero
  | number (value other : κ) : Renumbered (num value) (num other)
  | like {rest term : Expr κ} (symbolic : rest.asNumber? = none) (also : term.asNumber? = none)
      (alike : term.splitCoefficient.2 = rest.splitCoefficient.2) : Renumbered rest term

theorem renumbered_product [Neutral κ] {rest : Expr κ} (canonical : rest.Canonical)
    {operands : List (Expr κ)} (inside : ∀ operand ∈ operands, operand.Canonical)
    (leaves : symbolicIn (factorsOf operands) = symbolicIn rest.factors) :
    Renumbered rest (product operands) := by
  rw [product_unlike inside (leaves ▸ unlike_factors canonical), leaves]
  generalize (numbersIn (factorsOf operands)).foldl (· * ·) 1 = coefficient
  cases vanishes : Scalar.isZero coefficient with
  | true =>
      rw [ofFactors, if_pos vanishes]
      exact .zero
  | false =>
      cases numeric : rest.asNumber? with
      | some value =>
          obtain rfl := asNumber?_eq_some.mp numeric
          have none : symbolicIn (factors (num value)) = [] := rfl
          rw [none, ofFactors, vanishes, if_neg Bool.false_ne_true]
          exact .number value _
      | none =>
          have scaled := scaled_of_canonical canonical numeric
          have unscaled := scaled.unscaled
          have same : symbolicIn rest.factors = rest.splitCoefficient.2.factors := by
            generalize rest.splitCoefficient.1 = first at scaled
            generalize rest.splitCoefficient.2 = bare at scaled unscaled
            cases scaled with
            | alone => exact symbolicIn_eq_self unscaled.symbolic
            | times =>
                have flat : factors (scaledBy first bare) = _ :=
                  factorsOf_eq_self (List.forall_mem_cons.mpr
                    ⟨(by rintro ⟨⟩), fun leaf member => (unscaled.canonical.factors leaf member).2⟩)
                rw [flat, symbolicIn_num, symbolicIn_eq_self unscaled.symbolic]
          rw [same, unscaled.ofFactors_eq vanishes]
          split
          · exact .like numeric unscaled.asNumber?_eq (by rw [unscaled.splitCoefficient_eq])
          · exact .like numeric rfl (by rw [splitCoefficient_scaledBy unscaled])

theorem Canonical.renumbered_insert [Neutral κ] {rest : Expr κ} (canonical : rest.Canonical)
    {front back : List (Expr κ)} (split : rest.factors = front ++ back) (value : κ) :
    Renumbered rest (product (front ++ number value :: back)) := by
  have inside (factor : Expr κ) (member : factor ∈ front ++ number value :: back) :
      factor.Canonical ∧ factor.label ≠ .mul := by
    rcases List.mem_cons.mp (List.perm_middle.mem_iff.mp member) with rfl | other
    · exact ⟨canonical_number value, nofun⟩
    · exact canonical.factors factor (split ▸ other)
  refine renumbered_product canonical (fun factor member => (inside factor member).1) ?_
  rw [factorsOf_eq_self fun factor member => (inside factor member).2, split, symbolicIn_append,
    symbolicIn_append, number, symbolicIn_num]

theorem Canonical.renumbered_pair [Neutral κ] {rest : Expr κ} (canonical : rest.Canonical)
    (value : κ) : Renumbered rest (product [rest, number value]) := by
  have leaves : Expr.factorsOf [rest, number value] = rest.factors ++ [number value] := rfl
  refine renumbered_product canonical (List.forall_mem_cons.mpr
    ⟨canonical, List.forall_mem_singleton.mpr (canonical_number value)⟩) ?_
  rw [leaves, symbolicIn_append, number, symbolicIn_num]
  exact List.append_nil _

end Expr

namespace Simplifier

open Mechanism.Expr

variable {κ : Type} [Scalar κ]

/-- Two and one are told from all other numbers, and the squares of the sine and the cosine of a
number are numbers, unless both functions stay as they are. -/
class Squares (κ : Type) [Scalar κ] : Prop extends Neutral κ where
  eq_one : ∀ value : κ, Scalar.isOne value = true → value = 1
  isTwo_iff : ∀ value : κ, Scalar.isEqual value (Scalar.ofInt 2) = true ↔ value = Scalar.ofInt 2
  isZero_two : Scalar.isZero (Scalar.ofInt 2 : κ) = false
  isOne_two : Scalar.isOne (Scalar.ofInt 2 : κ) = false
  folds : ∀ value : κ,
    ((num value).sin = call .sin (num value) ∧ (num value).cos = call .cos (num value)) ∨
      ∃ first second, (num value).sin.square = number first ∧ (num value).cos.square = number second

theorem integer_two [Squares κ] : (integer 2 : Expr κ) = num (Scalar.ofInt 2) :=
  number_of_nonzero Squares.isZero_two

theorem square_number (value : RealNumber) :
    ∃ result, (num value : Expr RealNumber).square = number result := by
  have zero : Scalar.isZero (Scalar.ofInt 2 : RealNumber) = false :=
    decide_eq_false (show ((2 : ℤ) : ℝ) ≠ 0 by norm_num)
  have one : Scalar.isOne (Scalar.ofInt 2 : RealNumber) = false :=
    decide_eq_false (show ((2 : ℤ) : ℝ) ≠ 1 by norm_num)
  have defined : PowerDefined value.value (2 : ℤ) :=
    ⟨fun _ => by norm_num, fun _ => ⟨2, rfl⟩⟩
  have raised : Scalar.power value (Scalar.ofInt 2) =
      some (RealNumber.mk (value.value ^ ((2 : ℤ) : ℝ))) :=
    congrArg (Option.map RealNumber.mk) (if_pos defined)
  have folded : foldedPower? (num value) (num (Scalar.ofInt 2)) =
      some (RealNumber.mk (value.value ^ ((2 : ℤ) : ℝ))) := by
    rw [foldedPower?, raised]
    rfl
  refine ⟨RealNumber.mk (value.value ^ ((2 : ℤ) : ℝ)), ?_⟩
  have noZero : (num (Scalar.ofInt 2) : Expr RealNumber).isZero = false := zero
  have noOne : (num (Scalar.ofInt 2) : Expr RealNumber).isOne = false := one
  rw [square, powerOf, integer, number_of_nonzero zero, power, fuelFor, powerWith, noZero, noOne,
    folded]
  · rfl
  · intro _ _ _ _ same
    cases same
  · intro _ _ _ same
    cases same

noncomputable instance : Squares RealNumber where
  eq_one value isOne := congrArg RealNumber.mk ((Exact.isEqual_iff value 1).mp isOne)
  isTwo_iff value := by
    rw [Exact.isEqual_iff]
    exact ⟨congrArg RealNumber.mk, congrArg _⟩
  isZero_two := decide_eq_false (show ((2 : ℤ) : ℝ) ≠ 0 by norm_num)
  isOne_two := decide_eq_false (show ((2 : ℤ) : ℝ) ≠ 1 by norm_num)
  folds value := by
    have sine : Scalar.apply .sin value = some ⟨Real.sin value.value⟩ :=
      congrArg (Option.map RealNumber.mk) (if_pos trivial)
    have cosine : Scalar.apply .cos value = some ⟨Real.cos value.value⟩ :=
      congrArg (Option.map RealNumber.mk) (if_pos trivial)
    obtain ⟨first, squaredSine⟩ := square_number (Scalar.unsigned ⟨Real.sin value.value⟩)
    obtain ⟨second, squaredCosine⟩ := square_number (Scalar.unsigned ⟨Real.cos value.value⟩)
    refine Or.inr ⟨first, second, ?_, ?_⟩
    · have folded : (num value).sin = num (Scalar.unsigned ⟨Real.sin value.value⟩) := by
        simp only [sin, apply, asNumber?, Option.bind_some, sine]
        rfl
      rw [folded, squaredSine]
    · have folded : (num value).cos = num (Scalar.unsigned ⟨Real.cos value.value⟩) := by
        simp only [cos, apply, asNumber?, Option.bind_some, cosine]
        rfl
      rw [folded, squaredCosine]

section

variable {angle : Expr κ}

theorem canonical_call {function : Elementary} (canonical : angle.Canonical)
    (kept : apply function angle = call function angle) : (call function angle).Canonical := by
  refine .node ?_ (List.forall_mem_singleton.mpr canonical)
  unfold apply at kept
  simp only at kept
  split at kept
  · cases kept
  · assumption

theorem apply_eq_call [Neutral κ] {function : Elementary}
    (canonical : (call function angle).Canonical) : apply function angle = call function angle :=
  canonical.rebuild_eq

variable [Squares κ]

def squareOf (function : Elementary) (angle : Expr κ) : Expr κ :=
  pow (call function angle) (num (Scalar.ofInt 2))

theorem settled_squareOf (function : Elementary) (angle : Expr κ) :
    SettledPower (call function angle) (num (Scalar.ofInt 2)) where
  kept := by rintro (passes | passes) <;> cases passes
  notOne := rfl
  exponentZero := Squares.isZero_two
  exponentOne := Squares.isOne_two
  unfolded := rfl

theorem square_call (function : Elementary) (angle : Expr κ) :
    (call function angle).square = squareOf function angle := by
  rw [square, powerOf, integer_two]
  exact powerWith_settled _ (settled_squareOf function angle)

theorem canonical_squareOf {function : Elementary} (canonical : (call function angle).Canonical) :
    (squareOf function angle).Canonical :=
  .node (settled_squareOf function angle) (List.forall_mem_cons.mpr ⟨canonical,
    List.forall_mem_singleton.mpr
      (canonical_leaf (unsigned_of_nonzero Squares.isZero_two) rfl)⟩)

theorem kept_or_folded (angle : Expr κ) :
    (angle.sin = call .sin angle ∧ angle.cos = call .cos angle) ∨
      ∃ first second, angle.sin.square = number first ∧ angle.cos.square = number second := by
  cases angle with
  | num value => exact Squares.folds value
  | _ => exact Or.inl ⟨rfl, rfl⟩

theorem cos_kept (kept : angle.sin = call .sin angle) : angle.cos = call .cos angle := by
  rcases kept_or_folded angle with ⟨_, cosine⟩ | ⟨_, _, sine, _⟩
  · exact cosine
  · rw [kept, square_call] at sine
    cases sine

theorem square_sin (kept : angle.sin = call .sin angle) :
    angle.sin.square = squareOf .sin angle := by
  rw [kept, square_call]

theorem square_cos (kept : angle.sin = call .sin angle) :
    angle.cos.square = squareOf .cos angle := by
  rw [cos_kept kept, square_call]

end

/-- The second term is `rest * cos(angle)^2`, and the first one is `rest * sin(angle)^2`, wherever the
square is written among the factors. The rest has no power of `sin(angle)`, which would take the
square up. -/
structure Pythagorean (rest angle first second : Expr κ) : Prop where
  canonical : rest.Canonical
  angle_canonical : angle.Canonical
  apart : ∀ factor ∈ rest.factors, factor.baseAndExponent.1 ≠ call .sin angle
  sine : ∃ front back, rest.factors = front ++ back ∧
    first = product (front ++ angle.sin.square :: back)
  cosine : second = product [rest, angle.cos.square]

/-- Two of the terms are `T * sin(x)^2` and `T * cos(x)^2`. -/
def AddsUp (terms : List (Expr κ)) : Prop :=
  ∃ rest angle first second, Pythagorean rest angle first second ∧ [first, second].Subperm terms

def shown (coefficient : κ) : List (Expr κ) :=
  if Scalar.isOne coefficient then [] else [num coefficient]

theorem foldl_shown [Squares κ] (coefficient : κ) :
    (numbersIn (shown coefficient)).foldl (· * ·) 1 = coefficient := by
  rw [shown]
  split
  · rename_i isOne
    exact (Squares.eq_one _ isOne).symm
  · exact foldl_mul_single coefficient

theorem symbolicIn_shown (coefficient : κ) : symbolicIn (shown coefficient) = [] := by
  rw [shown]
  split <;> rfl

theorem flat_shown (coefficient : κ) : ∀ factor ∈ shown coefficient, factor.label ≠ .mul := by
  rw [shown]
  split <;> simp [label]

theorem factorsOf_ofFactors {coefficient : κ} (nonzero : Scalar.isZero coefficient = false)
    {operands : List (Expr κ)} (some : operands ≠ [])
    (flat : ∀ operand ∈ operands, operand.label ≠ .mul) :
    Simplifier.factorsOf (ofFactors coefficient operands) =
      shown coefficient ++ arrange operands := by
  have perm := arrange_perm operands
  replace flat : ∀ operand ∈ arrange operands, operand.label ≠ .mul :=
    fun operand member => flat operand (perm.mem_iff.mp member)
  replace some : arrange operands ≠ [] := fun none => some (by simpa [none] using perm)
  rw [ofFactors, nonzero, if_neg Bool.false_ne_true, number_of_nonzero nonzero, shown]
  generalize arrange operands = leaves at flat some
  cases Scalar.isOne coefficient with
  | true =>
      rcases leaves with _ | ⟨leaf, _ | ⟨_, _⟩⟩
      · contradiction
      · have here := flat leaf List.mem_cons_self
        cases leaf with
        | mul => exact absurd rfl here
        | _ => rfl
      · rfl
  | false =>
      rcases leaves with _ | ⟨_, _ | ⟨_, _⟩⟩
      · contradiction
      · rfl
      · rfl

theorem factorsOf_of_canonical {term : Expr κ} (canonical : term.Canonical) :
    Simplifier.factorsOf term = term.factors := by
  cases term with
  | mul operands => exact (factorsOf_eq_self (SettledProduct.flat canonical.settled)).symm
  | _ => rfl

section

variable {term angle : Expr κ} {function : Elementary} {front back : List (Expr κ)}

theorem square_apart (canonical : term.Canonical)
    (split : term.factors = front ++ squareOf function angle :: back) :
    ∀ factor ∈ front ++ back, factor.baseAndExponent.1 ≠ call function angle := by
  intro factor among again
  have unlike := unlike_factors canonical
  rw [split, symbolicIn_middle front rfl, (List.perm_middle.map _).nodup_iff, ← symbolicIn_append,
    List.map_cons, List.nodup_cons] at unlike
  cases number : factor.asNumber? with
  | some value =>
      rw [asNumber?_eq_some.mp number] at again
      cases again
  | none =>
      have symbolic : factor ∈ symbolicIn (front ++ back) :=
        List.mem_filter.mpr ⟨among, by rw [number]; rfl⟩
      exact unlike.1 (List.mem_map.mpr ⟨factor, symbolic, again⟩)

theorem product_square [Neutral κ] (canonical : term.Canonical)
    (split : term.factors = front ++ squareOf function angle :: back) :
    product (front ++ squareOf function angle :: back) = term := by
  have symbolic : term.asNumber? = none := by
    cases term with
    | num value =>
        have number : squareOf function angle ∈ factors (num value) := by
          rw [split]
          exact List.mem_append_right _ List.mem_cons_self
        cases List.mem_singleton.mp number
    | _ => rfl
  exact split ▸ canonical.product_factors symbolic

end

section

variable [Squares κ] {rest angle first second : Expr κ}

theorem Pythagorean.mem_partners (pair : Pythagorean rest angle first second)
    (nonzero : rest.isZero = false) (kept : angle.sin = call .sin angle) :
    ∃ others, (others, second) ∈ partners first := by
  obtain ⟨front, back, split, rfl⟩ := pair.sine
  have canonical := pair.canonical
  have coefficient := canonical.nonzero_coefficient nonzero
  have inserted : product (front ++ squareOf .sin angle :: back) = _ :=
    product_insert (split ▸ canonical.factors) (split ▸ unlike_factors canonical)
      (canonical_squareOf (canonical_call pair.angle_canonical kept)) (by rintro ⟨⟩) rfl
      (split ▸ pair.apart)
  rw [← split] at inserted
  -- In the product the square stands among the other factors, which keep their order.
  obtain ⟨left, right, sorted, same⟩ := precedes_weak.sort_inside (symbolicIn front)
    (squareOf .sin angle) (symbolicIn back)
  have ordered : Sorted (symbolicIn rest.factors) := canonical.sorted_factors.1.filter _
  rw [← symbolicIn_append, ← split, ordered.sort_eq] at same
  have leaves : ∀ leaf ∈ symbolicIn rest.factors, leaf.label ≠ .mul :=
    fun leaf member => (canonical.factors leaf (List.mem_filter.mp member).1).2
  have flat : ∀ leaf ∈ symbolicIn front ++ squareOf .sin angle :: symbolicIn back,
      leaf.label ≠ .mul := by
    intro leaf member
    rcases List.mem_cons.mp (List.perm_middle.mem_iff.mp member) with rfl | other
    · rintro ⟨⟩
    · exact leaves leaf (by rwa [split, symbolicIn_append])
  have found := factorsOf_ofFactors coefficient (by simp) flat
  rw [arrange, sorted, ← List.append_assoc] at found
  generalize number : (numbersIn rest.factors).foldl (· * ·) 1 = value at inserted found
  refine ⟨shown value ++ left ++ right, mem_partners_iff.mpr
    ⟨shown value ++ left, angle, num (Scalar.ofInt 2), right, ?_, ?_, rfl, ?_⟩⟩
  · exact (Squares.isTwo_iff _).mpr rfl
  · rw [square_sin kept, inserted]
    exact found
  · rw [pair.cosine, partnerOf, square_cos kept, List.append_assoc (shown value), same]
    refine product_pair ?_ ?_ ?_ (by rintro ⟨⟩) rfl
    · rw [numbersIn_append, numbersIn_eq_nil fun leaf member => asNumber?_of_symbolic member,
        List.append_nil, foldl_shown, number]
    · rw [symbolicIn_append, symbolicIn_shown,
        symbolicIn_eq_self fun leaf member => asNumber?_of_symbolic member, List.nil_append]
    · exact List.forall_mem_append.mpr ⟨flat_shown _, leaves⟩

theorem product_one_square (function : Elementary) (angle : Expr κ) :
    product [one, squareOf function angle] = product [squareOf function angle] :=
  have coefficient : (numbersIn ([] : List (Expr κ))).foldl (· * ·) 1 =
      (numbersIn (factors (one : Expr κ))).foldl (· * ·) 1 := (foldl_mul_single 1).symm
  product_pair coefficient rfl (List.forall_mem_nil _) nofun rfl

theorem exists_pythagorean {term partner : Expr κ} {others : List (Expr κ)}
    (canonical : term.Canonical) (member : (others, partner) ∈ partners term) :
    ∃ rest angle, Pythagorean rest angle term partner := by
  obtain ⟨front, angle, exponent, back, two, split, rfl, rfl⟩ := mem_partners_iff.mp member
  obtain ⟨value, numeric, isTwo⟩ := (Option.any_eq_true _ _).mp two
  obtain rfl := asNumber?_eq_some.mp numeric
  obtain rfl := (Squares.isTwo_iff value).mp isTwo
  rw [factorsOf_of_canonical canonical] at split
  have sine : (call .sin angle).Canonical :=
    (canonical.factors (squareOf .sin angle) (split ▸ by simp [squareOf])).1.child List.mem_cons_self
  have kept : angle.sin = call .sin angle := apply_eq_call sine
  have angleCanonical := sine.child List.mem_cons_self
  obtain ⟨rest, restCanonical, whole | ⟨rfl, none⟩⟩ := canonical.exists_rest split
  · refine ⟨rest, angle, restCanonical, angleCanonical, whole ▸ square_apart canonical split,
      ⟨front, back, whole, ?_⟩, ?_⟩
    · rw [square_sin kept, product_square canonical split]
    · have moved : product [rest, squareOf .cos angle] =
          product (front ++ back ++ [squareOf .cos angle]) :=
        product_pair (whole ▸ rfl) (whole ▸ rfl)
          (fun factor among => (restCanonical.factors factor (whole ▸ among)).2) nofun rfl
      rw [partnerOf, square_cos kept, moved]
  · obtain ⟨rfl, rfl⟩ := List.append_eq_nil_iff.mp none
    refine ⟨one, angle, restCanonical, angleCanonical,
      List.forall_mem_singleton.mpr (fun again => by cases again), ⟨[one], [], rfl, ?_⟩, ?_⟩
    · rw [square_sin kept]
      exact (product_square canonical split).symm.trans (product_one_square .sin angle).symm
    · rw [partnerOf, square_cos kept]
      exact (product_one_square .cos angle).symm

end

/-- What a sum keeps apart: it has at most one number, which is not zero, and no two like terms. -/
structure Merged (terms : List (Expr κ)) : Prop where
  single : (numbersIn terms).length ≤ 1
  nonzero : ∀ value ∈ numbersIn terms, Scalar.isZero value = false
  unlike : ((symbolicIn terms).map fun term => term.splitCoefficient.2).Nodup

theorem merged_of_settled {terms : List (Expr κ)} (settled : SettledSum terms) : Merged terms :=
  ⟨settled.single, settled.nonzero, settled.unlike⟩

section

variable {terms : List (Expr κ)} {first second : Expr κ}

theorem Merged.zero_not_mem [Neutral κ] (merged : Merged terms) : zero ∉ terms := fun member =>
  Bool.false_ne_true
    ((merged.nonzero 0 (mem_numbersIn.mpr member)).symm.trans Neutral.isZero_zero)

theorem exists_perm_of_subperm (inside : [first, second].Subperm terms) :
    ∃ others, terms.Perm (first :: second :: others) := by
  obtain ⟨both, perm, fewer⟩ := inside
  obtain ⟨others, whole⟩ := fewer.exists_perm_append
  exact ⟨others, whole.trans (perm.append_right others)⟩

theorem Merged.not_both_numbers (merged : Merged terms) (inside : [first, second].Subperm terms) :
    first.asNumber? = none ∨ second.asNumber? = none := by
  obtain ⟨others, perm⟩ := exists_perm_of_subperm inside
  have single := merged.single
  rw [(numbersIn_perm perm).length_eq] at single
  by_contra both
  push Not at both
  obtain ⟨⟨value, here⟩, ⟨other, there⟩⟩ :=
    both.imp Option.ne_none_iff_exists'.mp Option.ne_none_iff_exists'.mp
  rw [asNumber?_eq_some.mp here, asNumber?_eq_some.mp there, numbersIn_num, numbersIn_num] at single
  simp at single

theorem Merged.not_alike (merged : Merged terms) (inside : [first, second].Subperm terms)
    (here : first.asNumber? = none) (there : second.asNumber? = none) :
    first.splitCoefficient.2 ≠ second.splitCoefficient.2 := by
  obtain ⟨others, perm⟩ := exists_perm_of_subperm inside
  have unlike := ((symbolicIn_perm perm).map _).nodup_iff.mp merged.unlike
  have both : symbolicIn (first :: second :: others) = first :: second :: symbolicIn others := by
    simp [symbolicIn, here, there]
  rw [both] at unlike
  exact fun same => (List.nodup_cons.mp unlike).1 (List.mem_cons.mpr (Or.inl same))

end

section

variable [Squares κ] {rest angle first second : Expr κ}

theorem Pythagorean.kept {terms : List (Expr κ)} (merged : Merged terms)
    (pair : Pythagorean rest angle first second) (inside : [first, second].Subperm terms) :
    angle.sin = call .sin angle := by
  refine (kept_or_folded angle).elim And.left ?_
  rintro ⟨a, b, sine, cosine⟩
  obtain ⟨front, back, split, written⟩ := pair.sine
  have firstRenumbered := pair.canonical.renumbered_insert split a
  have secondRenumbered := pair.canonical.renumbered_pair b
  rw [← sine, ← written] at firstRenumbered
  rw [← cosine, ← pair.cosine] at secondRenumbered
  have noFirst : first ≠ zero := fun same =>
    merged.zero_not_mem (same ▸ inside.subset List.mem_cons_self)
  have noSecond : second ≠ zero := fun same =>
    merged.zero_not_mem (same ▸ inside.subset (by simp))
  cases firstRenumbered with
  | zero => exact absurd rfl noFirst
  | number =>
      cases secondRenumbered with
      | zero => exact absurd rfl noSecond
      | number => rcases merged.not_both_numbers inside with none | none <;> cases none
      | like symbolic => cases symbolic
  | like symbolic here alike =>
      cases secondRenumbered with
      | zero => exact absurd rfl noSecond
      | number => cases symbolic
      | like _ there alikeToo =>
          exact absurd (alike.trans alikeToo.symm) (merged.not_alike inside here there)

theorem Pythagorean.nonzero {terms : List (Expr κ)} (merged : Merged terms)
    (pair : Pythagorean rest angle first second) (inside : [first, second].Subperm terms)
    (kept : angle.sin = call .sin angle) : rest.isZero = false := by
  rw [← Bool.not_eq_true]
  intro vanishes
  obtain ⟨value, numeric, isZero⟩ := (Option.any_eq_true _ _).mp vanishes
  obtain rfl := asNumber?_eq_some.mp numeric
  have inserted : product ([num value] ++ squareOf .cos angle :: []) = _ :=
    product_insert pair.canonical.factors (unlike_factors pair.canonical)
      (canonical_squareOf (canonical_call pair.angle_canonical (cos_kept kept))) nofun rfl
      (List.forall_mem_singleton.mpr fun again => by cases again)
  have second_eq : second = zero := by
    rw [pair.cosine, square_cos kept]
    refine inserted.trans ?_
    rw [List.append_nil, show numbersIn [(num value : Expr κ)] = [value] from rfl, foldl_mul_single,
      ofFactors, if_pos isZero]
  exact merged.zero_not_mem (second_eq ▸ inside.subset (by simp))

theorem addsUp_iff {terms : List (Expr κ)} (merged : Merged terms)
    (canonical : ∀ term ∈ terms, term.Canonical) : AddsUp terms ↔ collectOnce? terms ≠ none := by
  rw [Ne, collectOnce?_eq_none]
  push Not
  constructor
  · rintro ⟨rest, angle, first, second, pair, inside⟩
    have kept := pair.kept merged inside
    obtain ⟨others, member⟩ := pair.mem_partners (pair.nonzero merged inside kept) kept
    exact ⟨first, inside.subset List.mem_cons_self, _, member, inside.subset (by simp)⟩
  · rintro ⟨term, among, ⟨others, partner⟩, member, again⟩
    obtain ⟨rest, angle, pair⟩ := exists_pythagorean (canonical term among) member
    obtain ⟨_, splits, rfl⟩ := splits_of_mem_partners member
    refine ⟨rest, angle, term, _, pair, List.subperm_of_subset ?_ ?_⟩
    · simpa using splits.partnerOf_ne.symm
    · simp [among, again]

end

end Simplifier

end Mechanism
