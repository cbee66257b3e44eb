import Mechanism.Expr.Derivative
import Mechanism.Proofs.Calculus
import Mechanism.Proofs.Expr.Soundness

/-!
Differentiation. While the atoms of an expression move, its value changes at the rate that the
derived expression has: one rule for each kind of node, then the whole tree by induction.
-/

namespace Mechanism

open Filter Topology

/-- Exact numbers whose quotients are those of the real numbers. -/
class ExactDivision (κ : Type) [Scalar κ] [Exact κ] : Prop where
  real_div : ∀ left right : κ, Exact.real right ≠ 0 →
    Exact.real (left / right) = Exact.real left / Exact.real right

instance : ExactDivision RealNumber where
  real_div _ _ _ := rfl

namespace Expr

variable {κ : Type} [Scalar κ] [Exact κ]

theorem real_half [ExactDivision κ] : Exact.real (Scalar.half : κ) = 1 / 2 := by
  have two : Exact.real (Scalar.ofInt 2 : κ) = 2 := by
    rw [Exact.real_ofInt]
    norm_num
  rw [Scalar.half, ExactDivision.real_div _ _ (two ▸ two_ne_zero), Exact.real_one, two]

theorem takes_slope [ExactDivision κ] {assignment : Assignment} {function : Elementary}
    {argument : Expr κ} {value : ℝ} (takes : argument.Takes assignment value)
    (smooth : function.SmoothAt value) :
    (slope function argument).Takes assignment (function.realSlope value) := by
  have applied (other : Elementary) (defined : other.DefinedAt value) :
      (apply other argument).Takes assignment (other.real value) :=
    takes_apply takes (if_pos defined)
  have arc (above : -1 < value) (below : value < 1) :
      (one - argument.square).squareRoot.reciprocal.Takes assignment
        (Real.sqrt (1 - value ^ 2))⁻¹ := by
    have positive : 0 < 1 - value ^ 2 := by nlinarith
    apply takes_reciprocal _ (Real.sqrt_pos.mpr positive).ne'
    exact takes_apply (takes_minus takes_one (takes_square takes)) (if_pos positive.le)
  cases function with
  | sin => exact applied .cos trivial
  | cos => exact takes_negate (applied .sin trivial)
  | tan => exact takes_plus takes_one (takes_square (applied .tan smooth))
  | asin => exact arc smooth.1 smooth.2
  | acos => exact takes_negate (arc smooth.1 smooth.2)
  | atan => exact takes_reciprocal (takes_plus takes_one (takes_square takes)) (by positivity)
  | sqrt =>
      have positive : 0 < value := smooth
      have half : (number (Scalar.half : κ)).Takes assignment (1 / 2) :=
        real_half (κ := κ) ▸ takes_number _
      rw [Elementary.realSlope, one_add_one_eq_two]
      exact takes_times half
        (takes_reciprocal (applied .sqrt positive.le) (Real.sqrt_pos.mpr positive).ne')
  | abs => exact applied .sign trivial
  | sign => exact takes_zero
  | exp => exact applied .exp trivial
  | ln => exact takes_reciprocal takes (ne_of_gt smooth)

/-- Around the given time the expression has a value, which changes then at the rate that is the
value of the second expression. -/
structure Moves (course : ℝ → Assignment) (time : ℝ) (expr rate : Expr κ) (slope : ℝ) : Prop where
  defined : ∀ᶠ t in 𝓝 time, expr.Defined (course t)
  slopes : HasDerivAt (fun t => expr.valueIn (course t)) slope time
  takes : rate.Takes (course time) slope

variable {course : ℝ → Assignment} {time : ℝ}

theorem Moves.now {expr rate : Expr κ} {slope : ℝ} (moves : Moves course time expr rate slope) :
    expr.Takes (course time) (expr.valueIn (course time)) :=
  moves.defined.self_of_nhds.takes

theorem Moves.of_follows {expr rate : Expr κ} {slope : ℝ} (value : ℝ → ℝ)
    (follows : ∀ᶠ t in 𝓝 time, expr.Takes (course t) (value t))
    (slopes : HasDerivAt value slope time) (takes : rate.Takes (course time) slope) :
    Moves course time expr rate slope where
  defined := follows.mono fun _ takes => takes.defined
  slopes := slopes.congr_of_eventuallyEq (follows.mono fun _ takes => takes.valueIn_eq)
  takes := takes

theorem Moves.slope_eq_zero {expr rate : Expr κ} {slope : ℝ}
    (moves : Moves course time expr rate slope) (zero : rate.isZero = true) : slope = 0 :=
  moves.takes.unique (isZero_takes zero)

theorem moves_num (unknown : Atom) (number : κ) :
    Moves course time (num number) ((num number).derivative unknown) 0 := by
  apply Moves.of_follows fun _ => Exact.real number
  · exact Eventually.of_forall fun t => (takes_num number _).mpr rfl
  · exact hasDerivAt_const time _
  · rw [derivative_eq]
    exact takes_zero

/-- Each of the operands moves at the rate that is given for it. -/
def AllMove (course : ℝ → Assignment) (time : ℝ) (rate : Expr κ → Expr κ)
    (operands : List (Expr κ)) : Prop :=
  ∀ operand ∈ operands, ∃ slope, Moves course time operand (rate operand) slope

theorem AllMove.defined {rate : Expr κ → Expr κ} {operands : List (Expr κ)}
    (moves : AllMove course time rate operands) :
    ∀ᶠ t in 𝓝 time, ∀ operand ∈ operands, operand.Defined (course t) :=
  (eventually_all_finite (List.finite_toSet operands)).mpr fun operand member =>
    let ⟨_, moving⟩ := moves operand member
    moving.defined

theorem AllMove.sum {rate : Expr κ → Expr κ} {terms : List (Expr κ)}
    (moves : AllMove course time rate terms) :
    ∃ slope, HasDerivAt (fun t => (terms.map (valueIn (course t))).sum) slope time ∧
      SumsTo (course time) (terms.map rate) slope := by
  induction terms with
  | nil => exact ⟨0, hasDerivAt_const time 0, sumsTo_nil.mpr rfl⟩
  | cons head tail ih =>
      obtain ⟨⟨first, moving⟩, later⟩ := List.forall_mem_cons.mp moves
      obtain ⟨rest, slopes, sums⟩ := ih later
      refine ⟨first + rest, moving.slopes.add slopes, ?_⟩
      exact sumsTo_cons.mpr ⟨first, rest, moving.takes, sums, rfl⟩

theorem moves_add {rate : Expr κ → Expr κ} {terms : List (Expr κ)}
    (moves : AllMove course time rate terms) :
    ∃ slope, Moves course time (add terms) (sum (terms.map rate)) slope := by
  obtain ⟨slope, slopes, sums⟩ := moves.sum
  exact ⟨slope, .of_follows _
    (moves.defined.mono fun t defined => takes_add.mpr ⟨defined, rfl⟩) slopes (takes_sum sums)⟩

/-- The product rule with the operands that have been passed: these are constant factors of what
the remaining ones contribute. -/
theorem AllMove.productRule {rate : Expr κ → Expr κ} {before operands : List (Expr κ)} {passed : ℝ}
    (multiplies : MultipliesTo (course time) before passed)
    (moves : AllMove course time rate operands) :
    ∃ slope, HasDerivAt (fun t => (operands.map (valueIn (course t))).prod) slope time ∧
      SumsTo (course time)
        (productRule before (operands.map fun operand => (operand, rate operand)))
        (passed * slope) := by
  induction operands generalizing before passed with
  | nil => exact ⟨0, hasDerivAt_const time 1, sumsTo_nil.mpr (mul_zero passed)⟩
  | cons head tail ih =>
      obtain ⟨⟨first, moving⟩, others⟩ := List.forall_mem_cons.mp moves
      have extended := multiplies.append (multipliesTo_singleton.mpr moving.now)
      obtain ⟨rest, slopes, later⟩ := ih extended others
      have known : ∀ operand ∈ tail, operand.Defined (course time) :=
        AllMove.defined others |>.self_of_nhds
      refine ⟨first * (tail.map (valueIn (course time))).prod + head.valueIn (course time) * rest,
        moving.slopes.mul slopes, ?_⟩
      rw [List.map_cons, Expr.productRule]
      split
      · rename_i still
        rw [moving.slope_eq_zero still, zero_mul, zero_add, ← mul_assoc]
        exact later
      · have term := takes_product ((multiplies.append ⟨known, rfl⟩).append
          (multipliesTo_singleton.mpr moving.takes))
        refine sumsTo_cons.mpr
          ⟨passed * (tail.map (valueIn (course time))).prod * first, _, ?_, later, ?_⟩
        · simpa [Function.comp_def] using term
        · ring

theorem moves_mul {rate : Expr κ → Expr κ} {operands : List (Expr κ)}
    (moves : AllMove course time rate operands) :
    ∃ slope, Moves course time (mul operands)
      (sum (productRule [] (operands.zip (operands.map rate)))) slope := by
  obtain ⟨slope, slopes, sums⟩ := moves.productRule (multipliesTo_nil.mpr rfl)
  rw [one_mul] at sums
  rw [← List.map_prod_left_eq_zip]
  exact ⟨slope, .of_follows _
    (moves.defined.mono fun t defined => takes_mul.mpr ⟨defined, rfl⟩) slopes (takes_sum sums)⟩

/-- A product with a factor of zero is zero, whether or not its other factors have a value. -/
theorem takes_product_zero {number : κ} {operands : List (Expr κ)} {assignment : Assignment}
    (zero : Exact.real number = 0) :
    (product (num number :: operands)).Takes assignment 0 := by
  have coefficient :
      Scalar.isZero ((numbersIn (factorsOf (num number :: operands))).foldl (· * ·) 1) = true := by
    rw [isZero_iff, real_foldl_mul]
    simp [factorsOf, factors, numbersIn, asNumber?, zero]
  rw [product, fuelFor, productWith]
  simp only [coefficient, ↓reduceIte]
  exact takes_zero

theorem moves_pow_positive {base exponent baseRate exponentRate : Expr κ} {b e : ℝ}
    (first : Moves course time base baseRate b)
    (second : Moves course time exponent exponentRate e)
    (positive : 0 < base.valueIn (course time)) :
    ∃ slope, Moves course time (pow base exponent)
      (powerRule base exponent baseRate exponentRate) slope := by
  refine ⟨_, .of_follows
    (fun t => base.valueIn (course t) ^ exponent.valueIn (course t)) ?_
    (first.slopes.rpow second.slopes positive) ?_⟩
  · have remains := first.slopes.continuousAt.eventually (eventually_gt_nhds positive)
    filter_upwards [first.defined, second.defined, remains] with t left right above
    exact takes_pow.mpr ⟨_, _, left.takes, right.takes, realPower_of_pos above _⟩
  · have base' := first.now
    have exponent' := second.now
    generalize base.valueIn (course time) = x at positive base' ⊢
    generalize exponent.valueIn (course time) = y at exponent' ⊢
    unfold powerRule
    split
    · rename_i steady
      rw [second.slope_eq_zero steady, zero_mul, zero_mul, add_zero]
      split
      · rename_i still
        rw [first.slope_eq_zero still, zero_mul, zero_mul]
        exact takes_zero
      · have lowered := takes_power base' (takes_minus exponent' takes_one)
          (realPower_of_pos positive (y - 1))
        refine takes_product (multipliesTo_cons.mpr ⟨_, _, exponent', multipliesTo_cons.mpr
          ⟨_, _, lowered, multipliesTo_singleton.mpr first.takes, rfl⟩, ?_⟩)
        ring
    · have whole : (pow base exponent).Takes (course time) (x ^ y) :=
        takes_pow.mpr ⟨_, _, base', exponent', realPower_of_pos positive y⟩
      have logarithm : (apply .ln base).Takes (course time) (Real.log x) :=
        takes_apply base' (if_pos positive)
      have relative := takes_dividedBy (takes_times exponent' first.takes) base' positive.ne'
      have product := takes_times whole (takes_plus (takes_times second.takes logarithm) relative)
      convert product using 1
      rw [Real.rpow_sub_one positive.ne']
      field_simp
      ring

theorem isZero_zero : (zero : Expr κ).isZero = true := (isZero_iff 0).mpr Exact.real_zero

/-- A power with a whole exponent that does not change; where the base is zero, the derivative needs
an exponent that is positive. -/
theorem moves_pow_steady {base exponent baseRate exponentRate : Expr κ} {whole : ℤ} {b : ℝ}
    (moves : Moves course time base baseRate b) (takes : ∀ t, exponent.Takes (course t) whole)
    (still : exponentRate.isZero = true) (least : base.valueIn (course time) = 0 → 1 ≤ whole) :
    ∃ slope, Moves course time (pow base exponent)
      (powerRule base exponent baseRate exponentRate) slope := by
  have allowed : base.valueIn (course time) ≠ 0 ∨ 0 ≤ whole := by
    by_cases zero : base.valueIn (course time) = 0
    · exact .inr (zero_le_one.trans (least zero))
    · exact .inl zero
  have slopes := (hasDerivAt_zpow whole _ allowed).comp time moves.slopes
  refine ⟨_, .of_follows (fun t => base.valueIn (course t) ^ whole) ?_ slopes ?_⟩
  · have remains : ∀ᶠ t in 𝓝 time, base.valueIn (course t) = 0 → 0 ≤ whole := by
      rcases allowed with apart | nonnegative
      · exact (moves.slopes.continuousAt.eventually_ne apart).mono
          fun t apart zero => absurd zero apart
      · exact Eventually.of_forall fun t _ => nonnegative
    filter_upwards [moves.defined, remains] with t known below
    exact takes_pow.mpr ⟨_, _, known.takes, takes t, realPower_whole.mpr ⟨below, rfl⟩⟩
  · unfold powerRule
    rw [if_pos still]
    split
    · rename_i resting
      rw [moves.slope_eq_zero resting, mul_zero]
      exact takes_zero
    · have lowered := takes_minus (takes time) takes_one
      have power : realPower (base.valueIn (course time)) ((whole : ℝ) - 1) =
          some (base.valueIn (course time) ^ (whole - 1)) := by
        have defined : base.valueIn (course time) = 0 → 0 ≤ whole - 1 :=
          fun zero => sub_nonneg.mpr (least zero)
        exact_mod_cast realPower_whole.mpr ⟨defined, rfl⟩
      have below := takes_power moves.now lowered power
      refine takes_product (multipliesTo_cons.mpr ⟨_, _, takes time, multipliesTo_cons.mpr
        ⟨_, _, below, multipliesTo_singleton.mpr moves.takes, rfl⟩, ?_⟩)
      ring

theorem moves_pow_whole {base baseRate : Expr κ} {number : κ} {whole : ℤ} {b : ℝ}
    (moves : Moves course time base baseRate b) (isWhole : Exact.real number = whole)
    (nonzero : whole < 0 → base.valueIn (course time) ≠ 0) :
    ∃ slope, Moves course time (pow base (num number))
      (powerRule base (num number) baseRate zero) slope := by
  have exponent (t : ℝ) : (num number).Takes (course t) whole := (takes_num number _).mpr isWhole
  by_cases constant : whole = 0
  · -- the power is one wherever its base has a value, and its derivative has a factor of zero
    subst constant
    rw [Int.cast_zero] at isWhole
    refine ⟨0, .of_follows (fun _ => 1) ?_ (hasDerivAt_const time 1) ?_⟩
    · filter_upwards [moves.defined] with t known
      exact takes_pow.mpr ⟨_, _, known.takes, exponent t, by simpa using realPower_zero _⟩
    · rw [powerRule, if_pos isZero_zero]
      split
      · exact takes_zero
      · exact takes_product_zero isWhole
  · refine moves_pow_steady moves exponent isZero_zero fun zero => ?_
    have nonnegative : 0 ≤ whole := not_lt.mp fun negative => nonzero negative zero
    omega

theorem moves_call [ExactDivision κ] {function : Elementary} {argument rate : Expr κ} {a : ℝ}
    (moves : Moves course time argument rate a)
    (smooth : function.SmoothAt (argument.valueIn (course time))) :
    ∃ slope, Moves course time (call function argument)
      (if rate.isZero then zero else Expr.slope function argument * rate) slope := by
  refine ⟨function.realSlope (argument.valueIn (course time)) * a, .of_follows
    (fun t => function.real (argument.valueIn (course t))) ?_ ?_ ?_⟩
  · have defined := moves.slopes.continuousAt.eventually (Elementary.eventually_definedAt smooth)
    filter_upwards [moves.defined, defined] with t known inside
    exact takes_call.mpr ⟨_, known.takes, if_pos inside⟩
  · exact (Elementary.hasDerivAt_real smooth).comp time moves.slopes
  · split
    · rename_i still
      rw [moves.slope_eq_zero still, mul_zero]
      exact takes_zero
    · exact takes_times (takes_slope moves.now smooth) moves.takes

theorem moves_angle {y x yRate xRate : Expr κ} {dy dx : ℝ} (first : Moves course time y yRate dy)
    (second : Moves course time x xRate dx)
    (off : OffCut (y.valueIn (course time)) (x.valueIn (course time))) :
    ∃ slope, Moves course time (angle y x) (angleRule y x yRate xRate) slope := by
  refine ⟨_, .of_follows (fun t => realAngle (y.valueIn (course t)) (x.valueIn (course t)))
    ?_ (hasDerivAt_realAngle first.slopes second.slopes off) ?_⟩
  · filter_upwards [first.defined, second.defined] with t ordinate abscissa
    exact takes_angle.mpr ⟨_, _, ordinate.takes, abscissa.takes, rfl⟩
  · unfold angleRule
    split
    · rename_i still
      rw [Bool.and_eq_true] at still
      rw [first.slope_eq_zero still.1, second.slope_eq_zero still.2]
      simpa using takes_zero
    · have turned := takes_minus (takes_times second.now first.takes)
        (takes_times first.now second.takes)
      have distance := takes_plus (takes_square second.now) (takes_square first.now)
      exact takes_dividedBy turned distance off.positive.ne'

theorem eventually_holds_iff {α : Type} [TopologicalSpace α] {here : α} {left right : α → ℝ}
    {relation : Relation} (first : ContinuousAt left here) (second : ContinuousAt right here)
    (apart : left here ≠ right here) :
    ∀ᶠ near in 𝓝 here, (relation.Holds (left near) (right near) ↔
      relation.Holds (left here) (right here)) := by
  rcases apart.lt_or_gt with below | above
  · filter_upwards [first.eventually_lt second below] with near less
    cases relation <;>
      simp [Relation.Holds, less, below, less.not_gt, below.not_gt, less.ne, below.ne]
  · filter_upwards [second.eventually_lt first above] with near less
    cases relation <;>
      simp [Relation.Holds, less, above, less.not_gt, above.not_gt, less.ne', above.ne']

open Classical in
theorem moves_cond {relation : Relation}
    {left right chosen otherwise leftRate rightRate chosenRate otherwiseRate : Expr κ}
    {l r slope : ℝ} (first : Moves course time left leftRate l)
    (second : Moves course time right rightRate r)
    (apart : left.valueIn (course time) ≠ right.valueIn (course time))
    (taken : let holds := relation.Holds (left.valueIn (course time)) (right.valueIn (course time))
      Moves course time (if holds then chosen else otherwise)
        (if holds then chosenRate else otherwiseRate) slope) :
    Moves course time (cond relation left right chosen otherwise)
      (choose relation left right chosenRate otherwiseRate) slope := by
  apply Moves.of_follows _ _ taken.slopes (takes_choose first.now second.now taken.takes)
  filter_upwards [first.defined, second.defined, taken.defined,
    eventually_holds_iff first.slopes.continuousAt second.slopes.continuousAt apart]
    with t lhs rhs branch same
  refine takes_cond.mpr ⟨_, _, lhs.takes, rhs.takes, ?_⟩
  rw [if_congr same rfl rfl]
  exact branch.takes

def Smooth (assignment : Assignment) : Expr κ → Prop
  | pow base exponent =>
    0 < base.valueIn assignment ∨
      ∃ (number : κ) (whole : ℤ), exponent = num number ∧ Exact.real number = whole ∧
        (whole < 0 → base.valueIn assignment ≠ 0)
  | call function argument => function.SmoothAt (argument.valueIn assignment)
  | angle y x => OffCut (y.valueIn assignment) (x.valueIn assignment)
  | cond _ left right _ _ => left.valueIn assignment ≠ right.valueIn assignment
  | _ => True

open Classical in
/-- The operands that the value of a node depends on: of a choice, only the branch taken. -/
noncomputable def taken (assignment : Assignment) : Expr κ → List (Expr κ)
  | cond relation left right chosen otherwise =>
    [left, right,
      if relation.Holds (left.valueIn assignment) (right.valueIn assignment) then chosen
      else otherwise]
  | expr => expr.children

/-- Smooth at the root, and so on in the operands that its value depends on. -/
inductive SmoothThroughout (assignment : Assignment) : Expr κ → Prop where
  | node (expr : Expr κ) : Smooth assignment expr →
      (∀ operand ∈ expr.taken assignment, SmoothThroughout assignment operand) →
      SmoothThroughout assignment expr

theorem Defined.operand {assignment : Assignment} {expr : Expr κ}
    (defined : expr.Defined assignment) :
    ∀ operand ∈ expr.taken assignment, operand.Defined assignment := by
  obtain ⟨value, takes⟩ := defined
  cases expr with
  | num => simp [taken, children]
  | atom => simp [taken, children]
  | add => exact (takes_add.mp takes).1
  | mul => exact (takes_mul.mp takes).1
  | pow =>
      obtain ⟨b, e, first, second, _⟩ := takes_pow.mp takes
      simp [taken, children, first.defined, second.defined]
  | call =>
      obtain ⟨a, first, _⟩ := takes_call.mp takes
      simp [taken, children, first.defined]
  | angle =>
      obtain ⟨y, x, first, second, _⟩ := takes_angle.mp takes
      simp [taken, children, first.defined, second.defined]
  | cond =>
      obtain ⟨l, r, first, second, branch⟩ := takes_cond.mp takes
      rw [← first.valueIn_eq, ← second.valueIn_eq] at branch
      simpa [taken, first.defined, second.defined] using branch.defined

theorem SmoothThroughout.moves [ExactDivision κ] {unknown : Atom}
    (atoms : ∀ symbol, (atom symbol : Expr κ).Defined (course time) → ∃ slope,
      Moves course time (atom symbol : Expr κ) ((atom symbol).derivative unknown) slope)
    {expr : Expr κ} (throughout : expr.SmoothThroughout (course time))
    (defined : expr.Defined (course time)) :
    ∃ slope, Moves course time expr (expr.derivative unknown) slope := by
  induction throughout with
  | node expr smooth _ ih =>
      have operand : ∀ operand ∈ expr.taken (course time), ∃ slope,
          Moves course time operand (operand.derivative unknown) slope :=
        fun operand member => ih operand member (defined.operand operand member)
      cases expr with
      | num number => exact ⟨0, moves_num unknown number⟩
      | atom symbol => exact atoms symbol defined
      | add terms =>
          rw [derivative_eq]
          exact moves_add operand
      | mul operands =>
          rw [derivative_eq]
          exact moves_mul operand
      | pow base exponent =>
          obtain ⟨b, first⟩ := operand base (by simp [taken, children])
          rw [derivative_eq]
          rcases smooth with positive | ⟨number, whole, rfl, isWhole, nonzero⟩
          · obtain ⟨e, second⟩ := operand exponent (by simp [taken, children])
            exact moves_pow_positive first second positive
          · have still : (num number : Expr κ).derivative unknown = zero := by
              rw [derivative_eq]
              rfl
            simp only [children, List.map_cons, List.map_nil, rate, still]
            exact moves_pow_whole first isWhole nonzero
      | call function argument =>
          obtain ⟨a, moves⟩ := operand argument (by simp [taken, children])
          rw [derivative_eq]
          exact moves_call moves smooth
      | angle y x =>
          obtain ⟨dy, first⟩ := operand y (by simp [taken, children])
          obtain ⟨dx, second⟩ := operand x (by simp [taken, children])
          rw [derivative_eq]
          exact moves_angle first second smooth
      | cond relation left right chosen otherwise =>
          obtain ⟨l, first⟩ := operand left (by simp [taken])
          obtain ⟨r, second⟩ := operand right (by simp [taken])
          obtain ⟨slope, branch⟩ := operand _ (List.mem_cons_of_mem _ (List.mem_cons_of_mem _
            List.mem_cons_self))
          rw [derivative_eq]
          rw [apply_ite (derivative unknown)] at branch
          exact ⟨slope, moves_cond first second smooth branch⟩

/-- The assignment in which one atom has another value. -/
noncomputable def vary (assignment : Assignment) (unknown : Atom) (value : ℝ) : Assignment :=
  Function.update assignment unknown (some value)

theorem moves_atom {assignment : Assignment} {unknown symbol : Atom} {point : ℝ}
    (defined : (atom symbol : Expr κ).Defined (vary assignment unknown point)) :
    ∃ slope, Moves (vary assignment unknown) point (atom symbol : Expr κ)
      ((atom symbol).derivative unknown) slope := by
  rw [derivative_eq]
  by_cases same : symbol = unknown
  · refine ⟨1, .of_follows id ?_ (hasDerivAt_id point) ?_⟩
    · exact Eventually.of_forall fun t => (takes_atom symbol t).mpr (by simp [vary, same])
    · rw [rate, if_pos same]
      exact takes_one
  · obtain ⟨value, takes⟩ := defined
    have unmoved (t : ℝ) : vary assignment unknown t symbol = assignment symbol :=
      Function.update_of_ne same _ _
    rw [takes_atom, unmoved] at takes
    refine ⟨0, .of_follows (fun _ => value) ?_ (hasDerivAt_const point value) ?_⟩
    · exact Eventually.of_forall fun t => (takes_atom symbol value).mpr ((unmoved t).trans takes)
    · rw [rate, if_neg same]
      exact takes_zero

/-- Where an expression is defined and smooth throughout, its derivative has a value, and this is
the rate at which the value of the expression changes with the unknown. -/
theorem derivative_correct [ExactDivision κ] {assignment : Assignment} {unknown : Atom}
    {point : ℝ} (here : assignment unknown = some point) {expr : Expr κ}
    (defined : expr.Defined assignment) (throughout : expr.SmoothThroughout assignment) :
    (∀ᶠ t in 𝓝 point, expr.Defined (vary assignment unknown t)) ∧
      (expr.derivative unknown).Defined assignment ∧
      HasDerivAt (fun t => expr.valueIn (vary assignment unknown t))
        ((expr.derivative unknown).valueIn assignment) point := by
  have unmoved : vary assignment unknown point = assignment := by
    rw [vary, ← here, Function.update_eq_self]
  rw [← unmoved] at defined throughout
  obtain ⟨slope, moves⟩ := throughout.moves (fun _ => moves_atom) defined
  have takes := moves.takes
  rw [unmoved] at takes
  exact ⟨moves.defined, takes.defined, by rw [takes.valueIn_eq]; exact moves.slopes⟩

/-! The logarithm of an unknown where that is positive, and its magnitude elsewhere, at two. -/

namespace Branching

def unknown : Atom := .whole ⟨1, "x", .scalar, .real⟩

noncomputable def branches : Expr RealNumber :=
  cond .less zero (atom unknown) (call .ln (atom unknown)) (call .abs (atom unknown))

noncomputable def two : Assignment := fun _ => some (1 + 1)

theorem two_unknown : two unknown = some 2 := congrArg some one_add_one_eq_two

theorem takes_unknown : (atom unknown : Expr RealNumber).Takes two 2 :=
  (takes_atom _ _).mpr two_unknown

theorem taken_branches :
    branches.taken two = [zero, atom unknown, call .ln (atom unknown)] := by
  have positive : Relation.less.Holds ((zero : Expr RealNumber).valueIn two)
      ((atom unknown : Expr RealNumber).valueIn two) := by
    rw [takes_zero.valueIn_eq, takes_unknown.valueIn_eq]
    exact two_pos
  rw [branches, taken, if_pos positive]

theorem branches_defined : branches.Defined two := by
  have logarithm : Elementary.realApply .ln 2 = some (Real.log 2) := if_pos two_pos
  have positive : Relation.less.Holds 0 2 := two_pos
  refine ⟨Real.log 2, takes_cond.mpr ⟨0, 2, takes_zero, takes_unknown, ?_⟩⟩
  rw [if_pos positive]
  exact takes_call.mpr ⟨2, takes_unknown, logarithm⟩

theorem branches_smooth : branches.SmoothThroughout two := by
  have leaf (expr : Expr RealNumber) (smooth : expr.Smooth two) (none : expr.taken two = []) :
      expr.SmoothThroughout two :=
    .node expr smooth (by simp [none])
  have number : (zero : Expr RealNumber).SmoothThroughout two := leaf _ trivial rfl
  have symbol : (atom unknown : Expr RealNumber).SmoothThroughout two := leaf _ trivial rfl
  have logarithm : (call .ln (atom unknown) : Expr RealNumber).SmoothThroughout two := by
    refine .node _ ?_ (by simpa [taken, children] using symbol)
    rw [Smooth, takes_unknown.valueIn_eq]
    exact two_pos
  refine .node _ ?_ (by simp [taken_branches, number, symbol, logarithm])
  rw [branches, Smooth, takes_zero.valueIn_eq, takes_unknown.valueIn_eq]
  exact two_ne_zero.symm

theorem branches_derivative :
    two unknown = some 2 ∧ branches.Defined two ∧ branches.SmoothThroughout two ∧
      HasDerivAt (fun t => branches.valueIn (vary two unknown t))
        ((branches.derivative unknown).valueIn two) 2 :=
  ⟨two_unknown, branches_defined, branches_smooth,
    (derivative_correct two_unknown branches_defined branches_smooth).2.2⟩

end Branching

end Expr

end Mechanism
