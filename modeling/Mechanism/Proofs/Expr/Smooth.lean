import Mathlib.Analysis.Calculus.FDeriv.Pi
import Mathlib.Analysis.SpecialFunctions.Pow.Deriv
import Mechanism.Proofs.Expr.Reads
import Mechanism.Proofs.Expr.Substitution
import Mechanism.Proofs.Tensor.Algebra

/-!
Expressions at places where every operation is smooth. Such a place is surrounded by others, the
value is differentiable there in all atoms together, and along any line through it the value
changes at the rate that the derivatives by the atoms say.
-/

namespace Mechanism.Expr

open Filter Topology

variable {κ : Type} [Scalar κ]

def Closed (expr : Expr κ) : Prop := expr.ReadsOnly fun _ => False

variable [Exact κ] {assignment : Assignment}

theorem Closed.carries {expr : Expr κ} (closed : expr.Closed) (left right : Assignment) :
    Carries left right expr expr := by
  apply carries_of_agree
  exact fun symbol occurs => (closed symbol occurs).elim

omit [Exact κ] in
theorem productRule_still {rate : Expr κ → Expr κ} {operands : List (Expr κ)}
    (before : List (Expr κ)) (still : ∀ operand ∈ operands, (rate operand).isZero = true) :
    productRule before (operands.map fun operand => (operand, rate operand)) = [] := by
  induction operands generalizing before with
  | nil => rfl
  | cons head tail ih =>
      rw [List.forall_mem_cons] at still
      rw [List.map_cons, productRule, if_pos still.1]
      exact ih _ still.2

theorem Closed.derivative_eq {expr : Expr κ} (closed : expr.Closed) (unknown : Atom) :
    expr.derivative unknown = zero := by
  induction expr using induct with
  | step expr ih =>
      have still (child : Expr κ) (member : child ∈ expr.children) :
          child.derivative unknown = zero := ih child member (ReadsOnly.child closed member)
      have vanish (child : Expr κ) (member : child ∈ expr.children) :
          (child.derivative unknown).isZero = true := still child member ▸ isZero_zero
      rw [Expr.derivative_eq]
      cases expr with
      | num => rfl
      | atom symbol => exact (readsOnly_atom.mp closed).elim
      | add terms => exact sum_eq_zero (List.forall_mem_map.mpr vanish)
      | mul operands =>
          have none : productRule [] (operands.zip (operands.map (derivative unknown))) = [] := by
            rw [← List.map_prod_left_eq_zip]
            exact productRule_still [] vanish
          change sum (productRule [] (operands.zip (operands.map (derivative unknown)))) = zero
          rw [none]
          exact sum_eq_zero (by simp)
      | pow base exponent =>
          simp [rate, children, powerRule, still base (by simp [children]),
            still exponent (by simp [children]), isZero_zero]
      | call function argument =>
          simp [rate, children, still argument (by simp [children]), isZero_zero]
      | angle y x =>
          simp [rate, children, angleRule, still y (by simp [children]),
            still x (by simp [children]), isZero_zero]
      | cond relation left right chosen otherwise =>
          simp only [rate, children, List.map_cons, List.map_nil,
            still chosen (by simp [children]), still otherwise (by simp [children])]
          unfold choose
          split
          · rw [ite_self]
          · rw [if_pos (beq_self_eq_true _)]

/-- The base of a power is positive, or the exponent is a whole number that does not depend on
anything; where the base is zero, that number is at least the given one. -/
def PowerSmooth (order : Nat) (assignment : Assignment) (base exponent : Expr κ) : Prop :=
  0 < base.valueIn assignment ∨
    ∃ whole : ℤ, exponent.Closed ∧ exponent.Takes assignment whole ∧
      (base.valueIn assignment = 0 → (order : ℤ) ≤ whole)

open Classical in
/-- Every atom that the value depends on is known, and every operation is smooth at its operands:
powers so often as `order` says, and all others without limit. Of a choice only the branch that is
taken counts. -/
inductive SmoothAt (order : Nat) (assignment : Assignment) : Expr κ → Prop where
  | num (number : κ) : SmoothAt order assignment (num number)
  | atom {symbol : Atom} {value : ℝ} (known : assignment symbol = some value) :
      SmoothAt order assignment (atom symbol)
  | add {terms : List (Expr κ)} (each : ∀ term ∈ terms, SmoothAt order assignment term) :
      SmoothAt order assignment (add terms)
  | mul {operands : List (Expr κ)}
      (each : ∀ operand ∈ operands, SmoothAt order assignment operand) :
      SmoothAt order assignment (mul operands)
  | pow {base exponent : Expr κ} (lower : SmoothAt order assignment base)
      (upper : SmoothAt order assignment exponent)
      (smooth : PowerSmooth order assignment base exponent) :
      SmoothAt order assignment (pow base exponent)
  | call {function : Elementary} {argument : Expr κ}
      (operand : SmoothAt order assignment argument)
      (smooth : function.SmoothAt (argument.valueIn assignment)) :
      SmoothAt order assignment (call function argument)
  | angle {y x : Expr κ} (ordinate : SmoothAt order assignment y)
      (abscissa : SmoothAt order assignment x)
      (off : OffCut (y.valueIn assignment) (x.valueIn assignment)) :
      SmoothAt order assignment (angle y x)
  | cond {relation : Relation} {left right chosen otherwise : Expr κ}
      (lhs : SmoothAt order assignment left) (rhs : SmoothAt order assignment right)
      (apart : left.valueIn assignment ≠ right.valueIn assignment)
      (taken : SmoothAt order assignment
        (if relation.Holds (left.valueIn assignment) (right.valueIn assignment) then chosen
        else otherwise)) :
      SmoothAt order assignment (cond relation left right chosen otherwise)

variable {order : Nat}

theorem PowerSmooth.power {base exponent : Expr κ}
    (smooth : PowerSmooth order assignment base exponent) :
    realPower (base.valueIn assignment) (exponent.valueIn assignment) =
      some (base.valueIn assignment ^ exponent.valueIn assignment) := by
  rcases smooth with positive | ⟨whole, _, takes, least⟩
  · exact realPower_of_pos positive _
  · rw [takes.valueIn_eq, realPower_whole, Real.rpow_intCast]
    exact ⟨fun zero => (Int.natCast_nonneg order).trans (least zero), rfl⟩

theorem SmoothAt.defined {expr : Expr κ} (smooth : expr.SmoothAt order assignment) :
    expr.Defined assignment := by
  induction smooth with
  | num number => exact ⟨_, (takes_num number _).mpr rfl⟩
  | atom known => exact ⟨_, (takes_atom _ _).mpr known⟩
  | add _ ih => exact ⟨_, takes_add.mpr ⟨ih, rfl⟩⟩
  | mul _ ih => exact ⟨_, takes_mul.mpr ⟨ih, rfl⟩⟩
  | pow _ _ smooth base exponent =>
      exact ⟨_, takes_pow.mpr ⟨_, _, base.takes, exponent.takes, smooth.power⟩⟩
  | call _ smooth argument =>
      have inside := (Elementary.eventually_definedAt smooth).self_of_nhds
      exact ⟨_, takes_call.mpr ⟨_, argument.takes, if_pos inside⟩⟩
  | angle _ _ _ y x => exact ⟨_, takes_angle.mpr ⟨_, _, y.takes, x.takes, rfl⟩⟩
  | cond _ _ _ _ left right branch =>
      exact ⟨_, takes_cond.mpr ⟨_, _, left.takes, right.takes, branch.takes⟩⟩

theorem PowerSmooth.mono {base exponent : Expr κ} {less : Nat} (le : less ≤ order)
    (smooth : PowerSmooth order assignment base exponent) :
    PowerSmooth less assignment base exponent := by
  refine smooth.imp_right fun ⟨whole, closed, takes, least⟩ => ⟨whole, closed, takes, fun zero => ?_⟩
  exact (Int.ofNat_le.mpr le).trans (least zero)

theorem SmoothAt.mono {expr : Expr κ} {less : Nat} (le : less ≤ order)
    (smooth : expr.SmoothAt order assignment) : expr.SmoothAt less assignment := by
  induction smooth with
  | num number => exact .num number
  | atom known => exact .atom known
  | add _ ih => exact .add ih
  | mul _ ih => exact .mul ih
  | pow _ _ smooth base exponent => exact .pow base exponent (smooth.mono le)
  | call _ smooth argument => exact .call argument smooth
  | angle _ _ off y x => exact .angle y x off
  | cond _ _ apart _ left right branch => exact .cond left right apart branch

variable {course : ℝ → Assignment} {time : ℝ}

theorem SmoothAt.moves [ExactDivision κ] {unknown : Atom}
    (atoms : ∀ symbol, (Expr.atom symbol : Expr κ).Defined (course time) → ∃ slope,
      Moves course time (Expr.atom symbol : Expr κ) ((Expr.atom symbol).derivative unknown) slope)
    {expr : Expr κ} (smooth : expr.SmoothAt 1 (course time)) :
    ∃ slope, Moves course time expr (expr.derivative unknown) slope := by
  induction smooth with
  | num number => exact ⟨0, moves_num unknown number⟩
  | atom known => exact atoms _ ⟨_, (takes_atom _ _).mpr known⟩
  | add _ ih =>
      rw [derivative_eq]
      exact moves_add ih
  | mul _ ih =>
      rw [derivative_eq]
      exact moves_mul ih
  | @pow base exponent _ _ smooth lower upper =>
      obtain ⟨b, first⟩ := lower
      obtain ⟨e, second⟩ := upper
      rw [derivative_eq]
      rcases smooth with positive | ⟨whole, closed, takes, least⟩
      · exact moves_pow_positive first second positive
      · have still : (exponent.derivative unknown).isZero = true :=
          closed.derivative_eq unknown ▸ isZero_zero
        refine moves_pow_steady first (fun t => closed.carries _ _ _ takes) still ?_
        exact_mod_cast least
  | call _ smooth argument =>
      obtain ⟨a, moves⟩ := argument
      rw [derivative_eq]
      exact moves_call moves smooth
  | angle _ _ off y x =>
      obtain ⟨dy, first⟩ := y
      obtain ⟨dx, second⟩ := x
      rw [derivative_eq]
      exact moves_angle first second off
  | cond _ _ apart _ lhs rhs branch =>
      obtain ⟨l, first⟩ := lhs
      obtain ⟨r, second⟩ := rhs
      obtain ⟨slope, moves⟩ := branch
      rw [derivative_eq]
      rw [apply_ite (derivative unknown)] at moves
      exact ⟨slope, moves_cond first second apart moves⟩

section

variable {E : Type} [NormedAddCommGroup E] [NormedSpace ℝ E] {place : E → Assignment} {here : E}

/-- The expression stays smooth around a place, and its value is differentiable there. -/
structure Varies (order : Nat) (place : E → Assignment) (here : E) (expr : Expr κ) : Prop where
  lasts : ∀ᶠ near in 𝓝 here, expr.SmoothAt order (place near)
  differentiable : DifferentiableAt ℝ (fun near => expr.valueIn (place near)) here

theorem Varies.continuous {expr : Expr κ} (varies : expr.Varies order place here) :
    ContinuousAt (fun near => expr.valueIn (place near)) here :=
  varies.differentiable.continuousAt

theorem Varies.of_follows {expr : Expr κ} (value : E → ℝ)
    (lasts : ∀ᶠ near in 𝓝 here, expr.SmoothAt order (place near))
    (follows : ∀ᶠ near in 𝓝 here, expr.Takes (place near) (value near))
    (differentiable : DifferentiableAt ℝ value here) : expr.Varies order place here :=
  ⟨lasts, differentiable.congr_of_eventuallyEq (follows.mono fun _ takes => takes.valueIn_eq)⟩

theorem eventually_smoothAt_all {exprs : List (Expr κ)}
    (vary : ∀ expr ∈ exprs, expr.Varies order place here) :
    ∀ᶠ near in 𝓝 here, ∀ expr ∈ exprs, expr.SmoothAt order (place near) :=
  (eventually_all_finite (List.finite_toSet exprs)).mpr fun expr member => (vary expr member).lasts

theorem varies_add {terms : List (Expr κ)} (vary : ∀ term ∈ terms, term.Varies order place here) :
    (add terms).Varies order place here := by
  have lasts := eventually_smoothAt_all vary
  refine .of_follows (fun near => (terms.map (valueIn (place near))).sum)
    (lasts.mono fun _ => .add) ?_ ?_
  · exact lasts.mono fun _ each => takes_add.mpr ⟨fun term member => (each term member).defined, rfl⟩
  · clear lasts
    induction terms with
    | nil => exact differentiableAt_const 0
    | cons head tail ih =>
        rw [List.forall_mem_cons] at vary
        exact vary.1.differentiable.add (ih vary.2)

theorem varies_mul {operands : List (Expr κ)}
    (vary : ∀ operand ∈ operands, operand.Varies order place here) :
    (mul operands).Varies order place here := by
  have lasts := eventually_smoothAt_all vary
  refine .of_follows (fun near => (operands.map (valueIn (place near))).prod)
    (lasts.mono fun _ => .mul) ?_ ?_
  · exact lasts.mono fun _ each =>
      takes_mul.mpr ⟨fun operand member => (each operand member).defined, rfl⟩
  · clear lasts
    induction operands with
    | nil => exact differentiableAt_const 1
    | cons head tail ih =>
        rw [List.forall_mem_cons] at vary
        exact vary.1.differentiable.mul (ih vary.2)

omit [NormedSpace ℝ E] in
theorem eventually_powerSmooth {base exponent : Expr κ}
    (continuous : ContinuousAt (fun near => base.valueIn (place near)) here)
    (smooth : PowerSmooth order (place here) base exponent) :
    ∀ᶠ near in 𝓝 here, PowerSmooth order (place near) base exponent := by
  rcases smooth with positive | ⟨whole, closed, takes, least⟩
  · exact (continuous.eventually (eventually_gt_nhds positive)).mono fun near => .inl
  · have enough : ∀ᶠ near in 𝓝 here, base.valueIn (place near) = 0 → (order : ℤ) ≤ whole := by
      by_cases zero : base.valueIn (place here) = 0
      · exact Eventually.of_forall fun _ _ => least zero
      · exact (continuous.eventually_ne zero).mono fun _ apart zero => absurd zero apart
    exact enough.mono fun near least => .inr ⟨whole, closed, closed.carries _ _ _ takes, least⟩

theorem varies_pow {base exponent : Expr κ} (lower : base.Varies order place here)
    (upper : exponent.Varies order place here)
    (smooth : PowerSmooth order (place here) base exponent) :
    (pow base exponent).Varies order place here := by
  have remains := eventually_powerSmooth lower.continuous smooth
  have lasts : ∀ᶠ near in 𝓝 here, (pow base exponent).SmoothAt order (place near) := by
    filter_upwards [lower.lasts, upper.lasts, remains] with near base exponent smooth
    exact .pow base exponent smooth
  refine .of_follows (fun near => base.valueIn (place near) ^ exponent.valueIn (place near)) lasts
    ?_ ?_
  · filter_upwards [lower.lasts, upper.lasts, remains] with near base exponent smooth
    exact takes_pow.mpr ⟨_, _, base.defined.takes, exponent.defined.takes, smooth.power⟩
  · rcases smooth with positive | ⟨whole, closed, takes, least⟩
    · exact lower.differentiable.rpow upper.differentiable positive.ne'
    · have constant (near : E) : exponent.valueIn (place near) = whole :=
        (closed.carries _ _ _ takes).valueIn_eq
      have allowed : base.valueIn (place here) ≠ 0 ∨ 0 ≤ whole := by
        by_cases zero : base.valueIn (place here) = 0
        · exact .inr ((Int.natCast_nonneg _).trans (least zero))
        · exact .inl zero
      simp only [constant, Real.rpow_intCast]
      exact lower.differentiable.zpow allowed

theorem varies_call {function : Elementary} {argument : Expr κ}
    (operand : argument.Varies order place here)
    (smooth : function.SmoothAt (argument.valueIn (place here))) :
    (call function argument).Varies order place here := by
  have remains := operand.continuous.eventually (Elementary.eventually_smoothAt smooth)
  refine .of_follows (fun near => function.real (argument.valueIn (place near))) ?_ ?_ ?_
  · filter_upwards [operand.lasts, remains] with near argument smooth
    exact .call argument smooth
  · filter_upwards [operand.lasts, remains] with near argument smooth
    have inside := (Elementary.eventually_definedAt smooth).self_of_nhds
    exact takes_call.mpr ⟨_, argument.defined.takes, if_pos inside⟩
  · exact (Elementary.hasDerivAt_real smooth).differentiableAt.comp here operand.differentiable

theorem varies_angle {y x : Expr κ} (ordinate : y.Varies order place here)
    (abscissa : x.Varies order place here)
    (off : OffCut (y.valueIn (place here)) (x.valueIn (place here))) :
    (angle y x).Varies order place here := by
  have remains := eventually_offCut ordinate.continuous abscissa.continuous off
  refine .of_follows (fun near => realAngle (y.valueIn (place near)) (x.valueIn (place near)))
    ?_ ?_ (differentiableAt_realAngle ordinate.differentiable abscissa.differentiable off)
  · filter_upwards [ordinate.lasts, abscissa.lasts, remains] with near y x off
    exact .angle y x off
  · filter_upwards [ordinate.lasts, abscissa.lasts] with near y x
    exact takes_angle.mpr ⟨_, _, y.defined.takes, x.defined.takes, rfl⟩

open Classical in
theorem varies_cond {relation : Relation} {left right chosen otherwise : Expr κ}
    (lhs : left.Varies order place here) (rhs : right.Varies order place here)
    (apart : left.valueIn (place here) ≠ right.valueIn (place here))
    (taken : (if relation.Holds (left.valueIn (place here)) (right.valueIn (place here)) then chosen
      else otherwise).Varies order place here) :
    (cond relation left right chosen otherwise).Varies order place here := by
  have same : ∀ᶠ near in 𝓝 here,
      (relation.Holds (left.valueIn (place near)) (right.valueIn (place near)) ↔
        relation.Holds (left.valueIn (place here)) (right.valueIn (place here))) :=
    eventually_holds_iff lhs.continuous rhs.continuous apart
  refine .of_follows _ ?_ ?_ taken.differentiable
  · filter_upwards [lhs.lasts, rhs.lasts, taken.lasts, same,
      (lhs.continuous.prodMk rhs.continuous).eventually
        (isOpen_ne_fun continuous_fst continuous_snd |>.mem_nhds apart)]
      with near left right branch same apart
    refine .cond left right apart ?_
    rwa [if_congr same rfl rfl]
  · filter_upwards [lhs.lasts, rhs.lasts, taken.lasts, same] with near left right branch same
    refine takes_cond.mpr ⟨_, _, left.defined.takes, right.defined.takes, ?_⟩
    rw [if_congr same rfl rfl]
    exact branch.defined.takes

theorem SmoothAt.varies
    (atoms : ∀ symbol, (Expr.atom symbol : Expr κ).Defined (place here) →
      (Expr.atom symbol : Expr κ).Varies order place here)
    {expr : Expr κ} (smooth : expr.SmoothAt order (place here)) :
    expr.Varies order place here := by
  induction smooth with
  | num number =>
      refine .of_follows (fun _ => Exact.real number) (Eventually.of_forall fun _ => .num number)
        (Eventually.of_forall fun _ => (takes_num number _).mpr rfl) (differentiableAt_const _)
  | atom known => exact atoms _ ⟨_, (takes_atom _ _).mpr known⟩
  | add _ ih => exact varies_add ih
  | mul _ ih => exact varies_mul ih
  | pow _ _ smooth lower upper => exact varies_pow lower upper smooth
  | call _ smooth operand => exact varies_call operand smooth
  | angle _ _ off ordinate abscissa => exact varies_angle ordinate abscissa off
  | cond _ _ apart _ lhs rhs taken => exact varies_cond lhs rhs apart taken

end

section

variable {ι : Type} [Fintype ι]

/-- The assignment in which some of the atoms have moved by the given offsets. -/
noncomputable def moved (assignment : Assignment) (atoms : ι → Atom) (offsets : ι → ℝ) :
    Assignment :=
  fun symbol => (assignment symbol).map
    (· + ∑ index, if atoms index = symbol then offsets index else 0)

variable {atoms : ι → Atom} {offsets rates : ι → ℝ}

theorem moved_eq_self {symbol : Atom} (unmoved : ∀ index, atoms index ≠ symbol) :
    moved assignment atoms offsets symbol = assignment symbol := by
  simp [moved, unmoved]

theorem moved_of_injective (injective : Function.Injective atoms) (index : ι) :
    moved assignment atoms offsets (atoms index) =
      (assignment (atoms index)).map (· + offsets index) := by
  rw [moved, Finset.sum_eq_single index]
  · rw [if_pos rfl]
  · exact fun other _ differs => if_neg fun same => differs (injective same)
  · exact fun missing => absurd (Finset.mem_univ index) missing

@[simp] theorem moved_zero : moved assignment atoms 0 = assignment := by
  funext symbol
  simp [moved]

theorem moved_moved (assignment : Assignment) (atoms : ι → Atom) (first second : ι → ℝ) :
    moved (moved assignment atoms first) atoms second =
      moved assignment atoms (first + second) := by
  funext symbol
  simp only [moved, Option.map_map, Function.comp_def, add_assoc, ← Finset.sum_add_distrib]
  congr 2
  funext value
  congr 2
  funext index
  split <;> simp

theorem moved_single [DecidableEq ι] {index : ι} {value : ℝ}
    (known : assignment (atoms index) = some value) (offset : ℝ) :
    moved assignment atoms (Pi.single index offset) =
      vary assignment (atoms index) (value + offset) := by
  funext symbol
  have only : (∑ other, if atoms other = symbol then Pi.single index offset other else 0) =
      if atoms index = symbol then offset else 0 := by
    rw [Finset.sum_eq_single index]
    · rw [Pi.single_eq_same]
    · intro other _ differs
      rw [Pi.single_eq_of_ne differs, ite_self]
    · exact fun missing => absurd (Finset.mem_univ index) missing
  rw [moved, only, vary]
  by_cases here : atoms index = symbol
  · rw [if_pos here, ← here, Function.update_self, known, Option.map_some]
  · rw [if_neg here, Function.update_of_ne (Ne.symm here)]
    simp

theorem SmoothAt.varies_moved {expr : Expr κ} (smooth : expr.SmoothAt order assignment)
    (atoms : ι → Atom) : expr.Varies order (moved assignment atoms) 0 := by
  have start : expr.SmoothAt order (moved assignment atoms 0) := by rwa [moved_zero]
  apply start.varies
  rintro symbol ⟨value, takes⟩
  rw [moved_zero, takes_atom] at takes
  have follows (offsets : ι → ℝ) : moved assignment atoms offsets symbol =
      some (value + ∑ index, if atoms index = symbol then offsets index else 0) := by
    rw [moved, takes, Option.map_some]
  refine .of_follows _ (Eventually.of_forall fun offsets => .atom (follows offsets))
    (Eventually.of_forall fun offsets => (takes_atom _ _).mpr (follows offsets)) ?_
  refine (differentiableAt_const value).add (DifferentiableAt.fun_sum fun index _ => ?_)
  split
  · exact differentiableAt_apply index 0
  · exact differentiableAt_const 0

theorem SmoothAt.partial [ExactDivision κ] {expr : Expr κ} (smooth : expr.SmoothAt 1 assignment)
    {unknown : Atom} {point : ℝ} (here : assignment unknown = some point) :
    (expr.derivative unknown).Defined assignment ∧
      HasDerivAt (fun t => expr.valueIn (vary assignment unknown t))
        ((expr.derivative unknown).valueIn assignment) point := by
  have unmoved : vary assignment unknown point = assignment := by
    rw [vary, ← here, Function.update_eq_self]
  rw [← unmoved] at smooth
  obtain ⟨slope, moves⟩ := smooth.moves fun _ => moves_atom
  have takes := moves.takes
  rw [unmoved] at takes
  exact ⟨takes.defined, by rw [takes.valueIn_eq]; exact moves.slopes⟩

/-- While atoms move along a line, the value changes at the rate that the derivatives by these
atoms add up to. -/
theorem SmoothAt.hasDerivAt_moved [ExactDivision κ] {expr : Expr κ}
    (smooth : expr.SmoothAt 1 assignment) (known : ∀ index, (assignment (atoms index)).isSome) :
    HasDerivAt (fun t : ℝ => expr.valueIn (moved assignment atoms (t • rates)))
      (∑ index, rates index * (expr.derivative (atoms index)).valueIn assignment) 0 := by
  classical
  have whole := (smooth.varies_moved atoms).differentiable.hasFDerivAt
  generalize fderiv ℝ (fun offsets => expr.valueIn (moved assignment atoms offsets)) 0 = slope
    at whole
  -- along each axis the slope is the derivative by the atom that moves there
  have axis (index : ι) : slope (Pi.single index 1) =
      (expr.derivative (atoms index)).valueIn assignment := by
    obtain ⟨value, here⟩ := Option.isSome_iff_exists.mp (known index)
    have line : HasDerivAt (fun t : ℝ => (Pi.single index t : ι → ℝ)) (Pi.single index 1) 0 :=
      (ContinuousLinearMap.single ℝ (fun _ : ι => ℝ) index).hasDerivAt
    have first := whole.comp_hasDerivAt_of_eq 0 line (by simp)
    have second := (smooth.partial here).2
    rw [← add_zero value] at second
    have shifted := second.comp_const_add value 0
    refine first.unique (shifted.congr_of_eventuallyEq (Eventually.of_forall fun t => ?_))
    simp only [Function.comp_apply, moved_single here]
  have line : HasDerivAt (fun t : ℝ => t • rates) rates 0 := by
    simpa using (hasDerivAt_id (0 : ℝ)).smul_const rates
  apply (whole.comp_hasDerivAt_of_eq 0 line (zero_smul ℝ rates).symm).congr_deriv
  conv_lhs => rw [← Finset.univ_sum_single rates, map_sum]
  refine Finset.sum_congr rfl fun index _ => ?_
  rw [← axis index, ← smul_eq_mul, ← map_smul, ← Pi.single_smul', smul_eq_mul, mul_one]

theorem SmoothAt.hasDerivAt_along [ExactDivision κ] {expr : Expr κ}
    (smooth : expr.SmoothAt 1 assignment) (known : ∀ index, (assignment (atoms index)).isSome)
    {offsets : ℝ → ι → ℝ} (start : offsets 0 = 0) (slopes : HasDerivAt offsets rates 0) :
    HasDerivAt (fun t : ℝ => expr.valueIn (moved assignment atoms (offsets t)))
      (∑ index, rates index * (expr.derivative (atoms index)).valueIn assignment) 0 := by
  have whole := (smooth.varies_moved atoms).differentiable.hasFDerivAt
  have line : HasDerivAt (fun t : ℝ => t • rates) rates 0 := by
    simpa using (hasDerivAt_id (0 : ℝ)).smul_const rates
  have tangent := whole.comp_hasDerivAt_of_eq 0 line (zero_smul ℝ rates).symm
  have curve := whole.comp_hasDerivAt_of_eq 0 slopes start.symm
  exact curve.congr_deriv (tangent.unique (smooth.hasDerivAt_moved known))

end

end Mechanism.Expr
