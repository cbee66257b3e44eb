import Mechanism.Expr.Derivative
import Mechanism.Proofs.Numbering.Expr
import Mechanism.Simplifier

/-!
What is read off expressions whose numbers are moved: the atoms come in the same order, the texts,
values and counts are the same, and derivatives, substitutions and simplifications give the moved
expressions.
-/

namespace Mechanism

namespace Expr

variable {κ : Type} [Scalar κ] (offset : Nat)

section Operators

variable (left right : Expr κ)

@[simp] theorem neg_shift : -shift offset left = shift offset (-left) := by
  change product [number (-1), shift offset left] = shift offset (product [number (-1), left])
  rw [← product_shift]
  simp

@[simp] theorem negate_shift : (shift offset left).negate = shift offset left.negate :=
  neg_shift offset left

@[simp] theorem powerOf_shift (exponent : Int) :
    (shift offset left).powerOf exponent = shift offset (left.powerOf exponent) := by
  rw [powerOf, powerOf, ← power_shift, shift_integer]

@[simp] theorem reciprocal_shift : (shift offset left).reciprocal = shift offset left.reciprocal := by
  rw [reciprocal, reciprocal, ← power_shift, shift_number]

@[simp] theorem add_shift : shift offset left + shift offset right = shift offset (left + right) :=
  sum_shift offset [left, right]

@[simp] theorem sub_shift : shift offset left - shift offset right = shift offset (left - right) := by
  change sum [shift offset left, (shift offset right).negate] =
    shift offset (sum [left, right.negate])
  rw [negate_shift]
  exact sum_shift offset [left, right.negate]

@[simp] theorem mul_shift : shift offset left * shift offset right = shift offset (left * right) :=
  product_shift offset [left, right]

@[simp] theorem div_shift : shift offset left / shift offset right = shift offset (left / right) := by
  change product [shift offset left, (shift offset right).reciprocal] =
    shift offset (product [left, right.reciprocal])
  rw [reciprocal_shift]
  exact product_shift offset [left, right.reciprocal]

@[simp] theorem sin_shift : (shift offset left).sin = shift offset left.sin := apply_shift offset _ _

@[simp] theorem cos_shift : (shift offset left).cos = shift offset left.cos := apply_shift offset _ _

@[simp] theorem squareRoot_shift :
    (shift offset left).squareRoot = shift offset left.squareRoot := apply_shift offset _ _

@[simp] theorem square_shift : (shift offset left).square = shift offset left.square :=
  powerOf_shift offset left 2

@[simp] theorem number_mul_shift (value : κ) :
    number value * shift offset left = shift offset (number value * left) := by
  simp [← mul_shift]

@[simp] theorem one_add_shift : one + shift offset left = shift offset (one + left) := by
  simp [← add_shift]

@[simp] theorem one_sub_shift : one - shift offset left = shift offset (one - left) := by
  simp [← sub_shift]

@[simp] theorem sub_one_shift : shift offset left - one = shift offset (left - one) := by
  simp [← sub_shift]

end Operators

@[simp] theorem rebuild_shift (expr : Expr κ) (operands : List (Expr κ)) :
    (shift offset expr).rebuild (operands.map (shift offset)) =
      shift offset (expr.rebuild operands) := by
  rcases operands with _ | ⟨a, _ | ⟨b, _ | ⟨c, _ | ⟨d, _ | ⟨e, rest⟩⟩⟩⟩⟩ <;> cases expr <;>
    simp [rebuild, ← sum_shift, ← product_shift]

theorem mapChildren_shift {change change' : Expr κ → Expr κ}
    (same : ∀ child, change' (shift offset child) = shift offset (change child)) (expr : Expr κ) :
    (shift offset expr).mapChildren change' = shift offset (expr.mapChildren change) := by
  rw [mapChildren, mapChildren, ← rebuild_shift, children_shift, List.map_map, List.map_map]
  exact congrArg _ (List.map_congr_left fun child _ => same child)

theorem fold_shift {β γ : Type} {step : Expr κ → List β → β} {step' : Expr κ → List γ → γ}
    (carry : β → γ)
    (same : ∀ expr values, step' (shift offset expr) (values.map carry) = carry (step expr values))
    (expr : Expr κ) : fold step' (shift offset expr) = carry (fold step expr) := by
  induction expr using induct with
  | step expr ih =>
      rw [fold_eq, children_shift, fold_eq, ← same, List.map_map, List.map_map]
      exact congrArg _ (List.map_congr_left ih)

@[simp] theorem slope_shift (function : Elementary) (argument : Expr κ) :
    slope function (shift offset argument) = shift offset (slope function argument) := by
  cases function <;> simp [slope]

theorem productRule_shift (before : List (Expr κ)) (pairs : List (Expr κ × Expr κ)) :
    productRule (before.map (shift offset)) (pairs.map (shift offset)) =
      (productRule before pairs).map (shift offset) := by
  induction pairs generalizing before with
  | nil => rfl
  | cons head tail ih =>
      have later := ih (before ++ [head.1])
      rw [List.map_append, List.map_cons, List.map_nil] at later
      have moved : before.map (shift offset) ++ (tail.map (shift offset)).map (·.1) ++
          [shift offset head.2] =
            (before ++ tail.map (·.1) ++ [head.2]).map (shift offset) := by
        simp [Function.comp_def]
      simp only [List.map_cons, shift_pair, productRule, isZero_shift, later, moved, product_shift]
      split <;> rfl

@[simp] theorem powerRule_shift (base exponent baseRate exponentRate : Expr κ) :
    powerRule (shift offset base) (shift offset exponent) (shift offset baseRate)
        (shift offset exponentRate) =
      shift offset (powerRule base exponent baseRate exponentRate) := by
  have product := product_shift offset [exponent, power base (exponent - one), baseRate]
  simp only [List.map_cons, List.map_nil] at product
  simp only [powerRule, isZero_shift, shift_ite, sub_one_shift, power_shift, product, shift_zero,
    apply_shift, mul_shift, div_shift, add_shift, ← shift_pow]

@[simp] theorem angleRule_shift (y x yRate xRate : Expr κ) :
    angleRule (shift offset y) (shift offset x) (shift offset yRate) (shift offset xRate) =
      shift offset (angleRule y x yRate xRate) := by
  simp [angleRule]

theorem rate_shift (unknown : Atom) (expr : Expr κ) (rates : List (Expr κ)) :
    rate (shift offset unknown) (shift offset expr) (rates.map (shift offset)) =
      shift offset (rate unknown expr rates) := by
  cases expr with
  | add terms => simp [rate]
  | atom symbol => simp [rate]
  | num value => simp [rate]
  | mul operands =>
      have pairs : (operands.map (shift offset)).zip (rates.map (shift offset)) =
          (operands.zip rates).map (shift offset) := by
        rw [List.zip_map]
        rfl
      rw [shift_mul]
      simp only [rate, pairs]
      rw [← sum_shift, ← productRule_shift]
      rfl
  | _ =>
      rcases rates with _ | ⟨a, _ | ⟨b, _ | ⟨c, _ | ⟨d, _ | ⟨e, rest⟩⟩⟩⟩⟩ <;>
        simp [rate]

@[simp] theorem derivative_shift (unknown : Atom) (expr : Expr κ) :
    (shift offset expr).derivative (shift offset unknown) =
      shift offset (expr.derivative unknown) :=
  fold_shift offset (shift offset) (rate_shift offset unknown) expr

@[simp] theorem occurrences_shift (expr : Expr κ) :
    (shift offset expr).occurrences = expr.occurrences.map (shift offset) := by
  induction expr using induct with
  | step expr ih =>
      cases compound : expr.asAtom? with
      | some symbol =>
          cases expr <;> simp_all [asAtom?, occurrences]
      | none =>
          have moved : (shift offset expr).asAtom? = none := by simp [compound]
          rw [occurrences_eq _ moved, occurrences_eq _ compound, children_shift, List.flatMap_map,
            List.map_flatMap, List.flatMap_congr ih]

@[simp] theorem atoms_shift (expr : Expr κ) :
    (shift offset expr).atoms = expr.atoms.map (shift offset) := by
  rw [atoms_eq, atoms_eq, occurrences_shift, Grouping.distinct_shift]

@[simp] theorem symbols_shift (expr : Expr κ) :
    (shift offset expr).symbols = expr.symbols.map (shift offset) := by
  rw [symbols, symbols, ← Grouping.distinct_shift, atoms_shift, List.map_map, List.map_map]
  exact congrArg _ (List.map_congr_left fun atom _ => Atom.symbol_shift offset atom)

@[simp] theorem reads_shift (expr : Expr κ) (wanted : Atom) :
    (shift offset expr).reads (shift offset wanted) = expr.reads wanted := by
  rw [Bool.eq_iff_iff, reads_iff, reads_iff, ← List.contains_iff_mem, ← List.contains_iff_mem,
    atoms_shift, contains_map_shift]

theorem substitute_shift {replacement replacement' : Atom → Option (Expr κ)}
    (same : ∀ atom, replacement' (shift offset atom) = (replacement atom).map (shift offset))
    (expr : Expr κ) :
    (shift offset expr).substitute replacement' = shift offset (expr.substitute replacement) := by
  refine fold_shift offset (shift offset) (fun expr operands => ?_) expr
  cases expr with
  | atom symbol =>
      simp only [shift_atom, replace, same]
      cases replacement symbol <;> simp
  | _ =>
      simp only [replace, ← rebuild_shift, shift_num, shift_add, shift_mul, shift_pow, shift_call,
        shift_angle, shift_cond]

theorem evaluate_shift {assignment assignment' : Atom → Option κ}
    (same : ∀ atom, assignment' (shift offset atom) = assignment atom) (expr : Expr κ) :
    (shift offset expr).evaluate assignment' = expr.evaluate assignment := by
  refine fold_shift offset id (fun expr values => ?_) expr
  rw [List.map_id, id]
  rcases values with _ | ⟨a, _ | ⟨b, _ | ⟨c, _ | ⟨d, _ | ⟨e, rest⟩⟩⟩⟩⟩ <;> cases expr <;>
    simp [valueAt, same]

@[simp] theorem operations_shift (expr : Expr κ) :
    (shift offset expr).operations = expr.operations := by
  refine fold_shift offset id (fun expr below => ?_) expr
  rw [List.map_id, id]
  cases expr <;> simp [operationsAt]

@[simp] theorem extent_shift (expr : Expr κ) : (shift offset expr).extent = expr.extent := by
  refine fold_shift offset id (fun expr below => ?_) expr
  rw [List.map_id, id]
  rcases below with _ | ⟨a, _ | ⟨b, _ | ⟨c, rest⟩⟩⟩ <;> cases expr <;> simp [extentAt]

@[simp] theorem precedence_shift (expr : Expr κ) :
    (shift offset expr).precedence = expr.precedence := by
  cases expr <;> simp [precedence]

@[simp] theorem below?_shift (expr : Expr κ) :
    below? (shift offset expr) = (below? expr).map (shift offset) := by
  cases expr with
  | pow base exponent =>
      simp only [shift_pow, below?, asNumber?_shift, negate_shift, power_shift]
      split <;> rfl
  | _ => simp [below?]

theorem fraction_shift (operands : List (Expr κ)) :
    Fraction.ofFactors (operands.map (shift offset)) =
      ⟨(Fraction.ofFactors operands).coefficient,
        (Fraction.ofFactors operands).numerator.map (shift offset),
        (Fraction.ofFactors operands).denominator.map (shift offset)⟩ := by
  simp [Fraction.ofFactors, List.filter_map, List.filterMap_map, List.map_filterMap,
    Function.comp_def]

variable [ScalarText κ]

/-- The number of a symbol enters no text, and neither does the order of numbers: the operands of
sums and products are written in the same order. -/
theorem textWith_shift (fuel place : Nat) (expr : Expr κ) :
    textWith fuel place (shift offset expr) = textWith fuel place expr := by
  induction fuel generalizing place expr with
  | zero => rfl
  | succ fuel ih =>
      have each : ∀ (place : Nat) (exprs : List (Expr κ)),
          (exprs.map (shift offset)).map (textWith fuel place) = exprs.map (textWith fuel place) := by
        intro place exprs
        rw [List.map_map]
        exact List.map_congr_left fun expr _ => ih place expr
      have binding := precedence_shift offset expr
      cases expr with
      | add terms =>
          rw [shift_add] at binding ⊢
          rcases terms with _ | ⟨first, rest⟩
          · rfl
          · have scaled : ∀ (value : κ) (factor : Expr κ),
                product [number value, shift offset factor] =
                  shift offset (product [number value, factor]) := by
              intro value factor
              simp [← product_shift]
            rw [List.map_cons] at binding ⊢
            simp [textWith, binding, ih, List.foldl_map, scaled]
      | mul operands =>
          rw [shift_mul] at binding ⊢
          simp only [textWith, fraction_shift, each, binding]
          rcases (Fraction.ofFactors operands).denominator with _ | ⟨first, _ | ⟨second, rest⟩⟩ <;>
            simp [ih, Function.comp_def]
      | num value => rw [shift_num]
      | atom symbol =>
          rw [shift_atom] at binding ⊢
          simp [textWith, binding]
      | pow base exponent =>
          rw [shift_pow] at binding ⊢
          simp [textWith, binding, ih]
      | call function argument =>
          rw [shift_call] at binding ⊢
          simp [textWith, binding, ih]
      | angle y x =>
          rw [shift_angle] at binding ⊢
          simp [textWith, binding, ih]
      | cond relation left right chosen otherwise =>
          rw [shift_cond] at binding ⊢
          simp [textWith, binding, ih]

@[simp] theorem text_shift (expr : Expr κ) : (shift offset expr).text = expr.text := by
  rw [text, extent_shift, textWith_shift, text]

end Expr

namespace Simplifier

variable {κ : Type} [Scalar κ]

/-- A simplifier that may be applied before or after the numbers are moved. -/
def Blind (simplifier : Simplifier κ) : Prop :=
  ∀ (offset : Nat) (expr : Expr κ),
    simplifier (shift offset expr) = shift offset (simplifier expr)

theorem keep_blind : (keep : Simplifier κ).Blind := fun _ _ => rfl

variable (offset : Nat)

@[simp] theorem isTwo_shift (expr : Expr κ) : isTwo (shift offset expr) = isTwo expr := by
  simp [isTwo]

@[simp] theorem squaredSine?_shift (expr : Expr κ) :
    squaredSine? (shift offset expr) = (squaredSine? expr).map (shift offset) := by
  cases expr with
  | pow base exponent =>
      cases base with
      | call function argument =>
          cases function <;> simp [squaredSine?]
      | _ => simp [squaredSine?]
  | _ => simp [squaredSine?]

@[simp] theorem factorsOf_shift (term : Expr κ) :
    factorsOf (shift offset term) = (factorsOf term).map (shift offset) := by
  cases term <;> simp [factorsOf]

theorem partners_shift (term : Expr κ) :
    partners (shift offset term) = (partners term).map (shift offset) := by
  simp only [partners, factorsOf_shift, List.zipIdx_map, List.filterMap_map, List.map_filterMap]
  refine List.filterMap_congr fun pair _ => ?_
  obtain ⟨factor, index⟩ := pair
  cases found : squaredSine? factor with
  | none => simp [found]
  | some argument =>
      simp [found, ← List.eraseIdx_map, ← Expr.product_shift]

theorem collectOnce?_shift (terms : List (Expr κ)) :
    collectOnce? (terms.map (shift offset)) = (collectOnce? terms).map (List.map (shift offset)) := by
  simp only [collectOnce?, List.zipIdx_map, List.findSome?_map, List.map_findSome?]
  refine congrArg (List.findSome? · _) (funext fun pair => ?_)
  obtain ⟨term, index⟩ := pair
  simp only [Function.comp_def, Prod.map, partners_shift, List.findSome?_map, List.map_findSome?, id]
  refine congrArg (List.findSome? · _) (funext fun choice => ?_)
  obtain ⟨rest, partner⟩ := choice
  have place : (terms.map (shift offset)).findIdx? (· == shift offset partner) =
      terms.findIdx? (· == partner) := by
    simp [List.findIdx?_map, Function.comp_def]
  simp only [shift_pair, shift_list, place]
  cases terms.findIdx? (· == partner) with
  | none => rfl
  | some other => simp [← List.eraseIdx_map]

theorem collectWith_shift (fuel : Nat) (terms : List (Expr κ)) :
    collectWith fuel (terms.map (shift offset)) = (collectWith fuel terms).map (shift offset) := by
  induction fuel generalizing terms with
  | zero => rfl
  | succ fuel ih =>
      rw [collectWith, collectOnce?_shift, collectWith]
      cases collectOnce? terms with
      | none => rfl
      | some fewer => exact ih fewer

theorem collect_shift (expr : Expr κ) : collect (shift offset expr) = shift offset (collect expr) := by
  cases expr <;> simp [collect, collectWith_shift]

@[simp] theorem collectIn_shift (expr : Expr κ) :
    collectIn (shift offset expr) = shift offset (collectIn expr) := by
  refine Expr.fold_shift offset (shift offset) (fun node operands => ?_) expr
  rw [Expr.rebuild_shift, collect_shift]

theorem basic_blind (limit : Nat) : (basic limit : Simplifier κ).Blind := by
  intro offset expr
  simp only [basic, Expr.operations_shift, collectIn_shift]
  split <;> rfl

end Simplifier

end Mechanism
