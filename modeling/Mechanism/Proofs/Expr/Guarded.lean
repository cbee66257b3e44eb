import Mechanism.Proofs.Expr.Arrangement
import Mechanism.Proofs.Expr.Smooth

/-!
An expression behind a guard, over real numbers: its derivative is that of the expression behind the
same guard, so that it is zero where the guarded symbol is.
-/

namespace Mechanism.Guarded

open Mechanism.Expr

@[simp] theorem isZero_mk (value : ℝ) :
    Scalar.isZero (⟨value⟩ : RealNumber) = decide (value = 0) := rfl

@[simp] theorem isOne_mk (value : ℝ) :
    Scalar.isOne (⟨value⟩ : RealNumber) = decide (value = 1) := rfl

theorem number_mk (value : ℝ) : (number ⟨value⟩ : Expr RealNumber) = num ⟨value⟩ := by
  have unsigned : Scalar.unsigned (⟨value⟩ : RealNumber) = ⟨value⟩ := by
    rw [Scalar.unsigned, isZero_mk]
    split
    · rename_i zero
      rw [of_decide_eq_true zero]
      rfl
    · rfl
  rw [number, unsigned]

theorem zero_add_mk (value : ℝ) : (0 + ⟨value⟩ : RealNumber) = ⟨value⟩ :=
  congrArg RealNumber.mk (zero_add value)

theorem one_mul_mk (value : ℝ) : (1 * ⟨value⟩ : RealNumber) = ⟨value⟩ :=
  congrArg RealNumber.mk (one_mul value)

noncomputable def minus : RealNumber := ⟨-1⟩

theorem isZero_minus : Scalar.isZero minus = false := by simp [minus]

theorem isOne_minus : Scalar.isOne minus = false := by
  rw [minus, isOne_mk]
  norm_num

theorem zero_add_minus : 0 + minus = minus := zero_add_mk _

theorem one_mul_minus : 1 * minus = minus := one_mul_mk _

noncomputable def guard (symbol : Atom) (otherwise : Expr RealNumber) : Expr RealNumber :=
  cond .equal (atom symbol) zero zero otherwise

variable {u v moving following : Atom} {w : Expr RealNumber}

theorem plain_guard : (guard u w).Plain := plain_cond ..

theorem ofFactors_minus {operands : List (Expr RealNumber)} (several : operands ≠ [])
    (sorted : arrange operands = operands) :
    ofFactors minus operands = mul (num minus :: operands) := by
  rw [ofFactors, isZero_minus, isOne_minus, sorted, if_neg Bool.false_ne_true]
  cases operands with
  | nil => exact absurd rfl several
  | cons head tail => cases tail <;> rw [minus, number_mk]

theorem productWith_minus (fuel : Nat) {operands : List (Expr RealNumber)}
    (parts : List (Expr RealNumber))
    (leaves : factorsOf operands = num minus :: parts) (plain : ∀ part ∈ parts, part.Plain)
    (unique : parts.Nodup) : productWith (fuel + 2) operands = ofFactors minus parts := by
  have nonzero : Scalar.isZero (1 * minus) = false := by rw [one_mul_minus, isZero_minus]
  rw [productWith_plain plain unique fuel leaves nonzero, one_mul_minus]

theorem negated_guard (fuel : Nat) :
    productWith (fuel + 2) [num minus, guard u w] = mul [num minus, guard u w] := by
  have leaves : factorsOf [num minus, guard u w] = num minus :: [guard u w] := rfl
  rw [productWith_minus fuel _ leaves (by simp [plain_guard]) (List.nodup_singleton _)]
  exact ofFactors_minus (List.cons_ne_nil _ _) rfl

theorem apart_guard : [atom moving, guard u w].Nodup ∧ [guard u w, atom moving].Nodup := by
  simp [guard]

theorem negated_moving (fuel : Nat) :
    productWith (fuel + 2) [mul [num minus, guard u w], atom moving] =
        mul [num minus, atom moving, guard u w] ∧
      productWith (fuel + 2) [num minus, mul [atom moving, guard u w]] =
        mul [num minus, atom moving, guard u w] := by
  have plain : ∀ part ∈ [atom moving, guard u w], part.Plain := by simp [plain_guard, plain_atom]
  have turned : ∀ part ∈ [guard u w, atom moving], part.Plain := by simp [plain_guard, plain_atom]
  have sorted := ofFactors_minus (List.cons_ne_nil (atom moving) [guard u w]) rfl
  constructor
  · rw [productWith_minus fuel [guard u w, atom moving] rfl turned apart_guard.2, ← sorted]
    rfl
  · rw [productWith_minus fuel [atom moving, guard u w] rfl plain apart_guard.1, sorted]

theorem scaledTerm?_one (multiply : List (Expr RealNumber) → Expr RealNumber)
    (term : Expr RealNumber) : scaledTerm? multiply (term, 0 + 1) = some term := by
  have unit : (0 + 1 : RealNumber) = ⟨1⟩ := zero_add_mk 1
  rw [scaledTerm?, unit, isZero_mk, isOne_mk]
  simp

theorem scaledTerm?_minus (multiply : List (Expr RealNumber) → Expr RealNumber)
    (term : Expr RealNumber) :
    scaledTerm? multiply (term, 0 + minus) = some (multiply [num minus, term]) := by
  rw [scaledTerm?, zero_add_minus, isZero_minus, isOne_minus, if_neg Bool.false_ne_true,
    if_neg Bool.false_ne_true, minus, number_mk]

theorem isZero_start : Scalar.isZero (0 : RealNumber) = true ∧
    Scalar.isZero (0 + 0 : RealNumber) = true := by
  have both : (0 + 0 : RealNumber) = ⟨0⟩ := zero_add_mk 0
  have start : (0 : RealNumber) = ⟨0⟩ := rfl
  rw [both, start, isZero_mk]
  simp

theorem minus_guard :
    (atom v - guard u w : Expr RealNumber) = add [atom v, mul [num minus, guard u w]] := by
  have negated : -guard u w = mul [num minus, guard u w] := by
    change product [number minus, guard u w] = _
    rw [product, fuelFor, minus, number_mk]
    exact negated_guard _
  change sum [atom v, -guard u w] = _
  rw [negated, sum, fuelFor]
  refine sumWith_apart _ [atom v, mul [num minus, guard u w]] isZero_start.1 apart_guard.1 ?_
  change [scaledTerm? _ (atom v, 0 + 1), scaledTerm? _ (guard u w, 0 + minus)] = _
  rw [scaledTerm?_one, scaledTerm?_minus, negated_guard]
  rfl

theorem derivative_atom (symbol unknown : Atom) : (atom symbol : Expr RealNumber).derivative unknown =
    if symbol = unknown then one else zero := by
  rw [derivative_eq]
  rfl

theorem derivative_num (value : RealNumber) (unknown : Atom) :
    (num value).derivative unknown = zero := by
  rw [derivative_eq]
  rfl

theorem derivative_guard (unknown : Atom) : (guard u w).derivative unknown =
    if zero = w.derivative unknown then zero else guard u (w.derivative unknown) := by
  have still := derivative_num 0 unknown
  rw [← Expr.zero] at still
  rw [derivative_eq]
  simp only [guard, rate, children, List.map_cons, List.map_nil, still, choose, beq_iff_eq]

theorem derivative_negated (unknown : Atom) : (mul [num minus, guard u w]).derivative unknown =
    sum (if ((guard u w).derivative unknown).isZero then []
      else [product [num minus, (guard u w).derivative unknown]]) := by
  rw [derivative_eq]
  simp only [rate, children, List.map_cons, List.map_nil, List.zip_cons_cons, List.zip_nil_left,
    derivative_num, productRule, isZero_zero, if_true, List.nil_append, List.cons_append]

theorem sum_negated : sum [zero, mul [num minus, guard u w]] = mul [num minus, guard u w] ∧
    sum [mul [num minus, guard u w]] = mul [num minus, guard u w] := by
  have single : [guard u w].Nodup := List.nodup_singleton _
  have scaled (fuel : Nat) : [scaledTerm? (productWith (fuel + 2)) (guard u w, 0 + minus)] =
      [mul [num minus, guard u w]].map some := by
    rw [scaledTerm?_minus, negated_guard]
    rfl
  constructor
  · rw [sum, fuelFor]
    exact sumWith_apart [zero, mul [num minus, guard u w]] _ isZero_start.2 single (scaled _)
  · rw [sum, fuelFor]
    exact sumWith_apart [mul [num minus, guard u w]] _ isZero_start.1 single (scaled _)

theorem derivative_driving (differs : v ≠ u) (rising : zero ≠ w.derivative u) :
    (atom v - guard u w : Expr RealNumber).derivative u =
      mul [num minus, guard u (w.derivative u)] := by
  have symbolic : (guard u (w.derivative u)).isZero = false := rfl
  have scaled : product [num minus, guard u (w.derivative u)] =
      mul [num minus, guard u (w.derivative u)] := negated_guard _
  rw [minus_guard, derivative_eq]
  simp only [rate, children, List.map_cons, List.map_nil, derivative_atom, if_neg differs,
    derivative_negated, derivative_guard, if_neg rising, symbolic, Bool.false_eq_true, ↓reduceIte,
    scaled, sum_negated]

theorem derivative_following (still : zero = w.derivative v) :
    (atom v - guard u w : Expr RealNumber).derivative v = one := by
  have nothing : sum ([] : List (Expr RealNumber)) = zero := sum_eq_zero (by simp)
  rw [minus_guard, derivative_eq]
  simp only [rate, children, List.map_cons, List.map_nil, derivative_atom, if_pos,
    derivative_negated, derivative_guard, if_pos still, isZero_zero, nothing]
  have unit : (0 + 1 + 0 : RealNumber) = ⟨1⟩ := by
    change (⟨0 + 1 + 0⟩ : RealNumber) = ⟨1⟩
    norm_num
  change ofTerms ([] ++ if Scalar.isZero (0 + 1 + 0 : RealNumber) then []
    else [number (0 + 1 + 0)]) = one
  rw [unit, isZero_mk, number_mk]
  simp [ofTerms]
  rfl

theorem rate_eq : sum [mul [num minus, guard u w] * atom moving, one * atom following] =
    add [atom following, mul [num minus, atom moving, guard u w]] := by
  have first : mul [num minus, guard u w] * atom moving = mul [num minus, atom moving, guard u w] :=
    (negated_moving _).1
  have second : one * atom following = (atom following : Expr RealNumber) := by
    have unit : (1 * 1 : RealNumber) = ⟨1⟩ := one_mul_mk 1
    have nonzero : Scalar.isZero (1 * 1 : RealNumber) = false := by simp [unit]
    have alone : ∀ part ∈ [(atom following : Expr RealNumber)], part.Plain := by simp [plain_atom]
    change productWith (_ + 2) [one, atom following] = _
    rw [productWith_plain alone (List.nodup_singleton _) _ rfl nonzero, unit, ofFactors]
    simp [arrange, Ordering.sort, Ordering.place]
  have apart : [mul [atom moving, guard u w], atom following].Nodup := by simp
  rw [first, second, sum, fuelFor]
  refine sumWith_apart _ [mul [num minus, atom moving, guard u w], atom following]
    isZero_start.1 apart ?_
  change [scaledTerm? _ (mul [atom moving, guard u w], 0 + minus),
    scaledTerm? _ (atom following, 0 + 1)] = _
  rw [scaledTerm?_one, scaledTerm?_minus, (negated_moving _).2]
  rfl

section

variable {assignment : Assignment} (here : assignment u = some 0)

include here

theorem takes_guard : (guard u w).Takes assignment 0 := by
  have equal : Relation.equal.Holds 0 0 := rfl
  refine takes_cond.mpr ⟨0, 0, (takes_atom _ _).mpr here, takes_zero, ?_⟩
  rw [if_pos equal]
  exact takes_zero

theorem takes_derivative_rate {speed : ℝ} (known : assignment moving = some speed) {unknown : Atom}
    (first : moving ≠ unknown) (second : following ≠ unknown) :
    ((add [atom following, mul [num minus, atom moving, guard u w]]).derivative unknown).Takes
      assignment 0 := by
  have change : ((guard u w).derivative unknown).Takes assignment 0 := by
    rw [derivative_guard]
    split
    · exact takes_zero
    · exact takes_guard here
  have product : ((mul [num minus, atom moving, guard u w]).derivative unknown).Takes
      assignment 0 := by
    rw [derivative_eq]
    simp only [rate, children, List.map_cons, List.map_nil, List.zip_cons_cons, List.zip_nil_left,
      derivative_num, derivative_atom, if_neg first, productRule, isZero_zero, if_true]
    apply takes_sum
    split
    · exact sumsTo_nil.mpr rfl
    · refine sumsTo_singleton.mpr (takes_product ?_)
      refine multipliesTo_cons.mpr ⟨-1, speed * 0, (takes_num _ _).mpr rfl, ?_, by simp⟩
      refine multipliesTo_cons.mpr ⟨speed, 0, (takes_atom _ _).mpr known, ?_, rfl⟩
      exact multipliesTo_singleton.mpr change
  rw [derivative_eq]
  simp only [rate, children, List.map_cons, List.map_nil, derivative_atom, if_neg second]
  exact takes_sum (sumsTo_cons.mpr ⟨0, 0, takes_zero, sumsTo_singleton.mpr product, by simp⟩)

end

end Mechanism.Guarded
