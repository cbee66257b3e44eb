import Mathlib.Analysis.SpecialFunctions.Complex.Arg
import Mechanism.Plane
import Mechanism.Proofs.Chain.Kinematics

/-!
The motion plane of an axis as the plane of complex numbers, where a rotation is a multiplication
by a number of length one, and the two crossings of circles.
-/

namespace Mechanism

open Complex (I)

noncomputable def heading (angle : ℝ) : ℂ := Complex.exp (angle * I)

@[simp] theorem heading_zero : heading 0 = 1 := by simp [heading]

theorem heading_add (first second : ℝ) :
    heading (first + second) = heading first * heading second := by
  rw [heading, Complex.ofReal_add, add_mul, Complex.exp_add, heading, heading]

theorem heading_sub_mul (first second : ℝ) :
    heading (first - second) * heading second = heading first := by
  rw [← heading_add, sub_add_cancel]

@[simp] theorem norm_heading (angle : ℝ) : ‖heading angle‖ = 1 := Complex.norm_exp_ofReal_mul_I angle

theorem heading_eq (angle : ℝ) : heading angle = ⟨Real.cos angle, Real.sin angle⟩ := by
  apply Complex.ext <;> simp [heading, Complex.exp_ofReal_mul_I_re, Complex.exp_ofReal_mul_I_im]

theorem norm_mul_heading_arg (point : ℂ) : ‖point‖ * heading point.arg = point :=
  Complex.norm_mul_exp_arg_mul_I point

theorem coe_eq_of_heading_eq {first second : ℝ} (same : heading first = heading second) :
    (first : Real.Angle) = second := by
  rw [heading_eq, heading_eq, Complex.mk.injEq] at same
  exact Real.Angle.cos_sin_inj same.1 same.2

theorem heading_arg_sub_arg_mul {point vector : ℂ} (length : ‖vector‖ = ‖point‖) :
    heading (point.arg - vector.arg) * vector = point := by
  calc heading (point.arg - vector.arg) * vector
      = ‖vector‖ * (heading (point.arg - vector.arg) * heading vector.arg) := by
        nth_rewrite 2 [← norm_mul_heading_arg vector]
        ring
    _ = point := by rw [heading_sub_mul, length, norm_mul_heading_arg]

theorem coe_angle_eq {point vector : ℂ} {angle : ℝ} (nonzero : vector ≠ 0)
    (turned : heading angle * vector = point) :
    (angle : Real.Angle) = ((point.arg - vector.arg : ℝ) : Real.Angle) := by
  apply coe_eq_of_heading_eq
  have length : ‖vector‖ = ‖point‖ := by rw [← turned, norm_mul, norm_heading, one_mul]
  exact mul_right_cancel₀ nonzero (turned.trans (heading_arg_sub_arg_mul length).symm)

structure RealCircle where
  center : ℂ
  radius : ℝ

namespace RealCircle

variable (first second : RealCircle)

noncomputable def distance : ℝ := ‖second.center - first.center‖

noncomputable def along : ℝ :=
  (first.radius ^ 2 - second.radius ^ 2 + first.distance second ^ 2) / (2 * first.distance second)

/-- The square of half the distance of the crossings. -/
noncomputable def radicand : ℝ := first.radius ^ 2 - first.along second ^ 2

/-- The circles have different centers and a point in common. -/
structure Meets : Prop where
  apart : first.center ≠ second.center
  nonneg : 0 ≤ first.radicand second

noncomputable def crossing (sign : ℝ) : ℂ :=
  first.center + (second.center - first.center) * ↑(first.along second / first.distance second) +
    I * (second.center - first.center) *
      ↑(sign * (Real.sqrt (first.radicand second) / first.distance second))

variable {first second}

theorem distance_pos (apart : first.center ≠ second.center) : 0 < first.distance second :=
  norm_pos_iff.mpr (sub_ne_zero.mpr apart.symm)

theorem exists_direction (apart : first.center ≠ second.center) :
    ∃ direction : ℂ, ‖direction‖ = 1 ∧
      second.center - first.center = direction * first.distance second := by
  have positive := distance_pos apart
  have nonzero : (first.distance second : ℂ) ≠ 0 := Complex.ofReal_ne_zero.mpr positive.ne'
  refine ⟨(second.center - first.center) / first.distance second, ?_,
    (div_mul_cancel₀ _ nonzero).symm⟩
  rw [norm_div, Complex.norm_real, Real.norm_of_nonneg positive.le]
  exact div_self positive.ne'

theorem crossing_eq (apart : first.center ≠ second.center) (sign : ℝ) {direction : ℂ}
    (straight : second.center - first.center = direction * first.distance second) :
    first.crossing second sign = first.center +
      direction * ⟨first.along second, sign * Real.sqrt (first.radicand second)⟩ := by
  have nonzero : (first.distance second : ℂ) ≠ 0 :=
    Complex.ofReal_ne_zero.mpr (distance_pos apart).ne'
  rw [crossing, straight, Complex.mk_eq_add_mul_I]
  push_cast
  field_simp
  ring

theorem sq_norm_mk (re im : ℝ) : ‖(⟨re, im⟩ : ℂ)‖ ^ 2 = re ^ 2 + im ^ 2 := by
  rw [Complex.sq_norm, Complex.normSq_mk]
  ring

theorem two_along (apart : first.center ≠ second.center) :
    2 * first.distance second * first.along second =
      first.radius ^ 2 - second.radius ^ 2 + first.distance second ^ 2 :=
  mul_div_cancel₀ _ (mul_ne_zero two_ne_zero (distance_pos apart).ne')

theorem Meets.norm_crossing_sub_first (meets : first.Meets second) {sign : ℝ} (unit : sign ^ 2 = 1)
    (radius : 0 ≤ first.radius) : ‖first.crossing second sign - first.center‖ = first.radius := by
  obtain ⟨direction, length, straight⟩ := exists_direction meets.apart
  rw [crossing_eq meets.apart sign straight, add_sub_cancel_left, norm_mul, length, one_mul]
  apply (sq_eq_sq₀ (norm_nonneg _) radius).mp
  rw [sq_norm_mk, mul_pow, unit, Real.sq_sqrt meets.nonneg, radicand]
  ring

theorem Meets.norm_crossing_sub_second (meets : first.Meets second) {sign : ℝ}
    (unit : sign ^ 2 = 1) (radius : 0 ≤ second.radius) :
    ‖first.crossing second sign - second.center‖ = second.radius := by
  obtain ⟨direction, length, straight⟩ := exists_direction meets.apart
  have shifted : first.crossing second sign - second.center = direction *
      ⟨first.along second - first.distance second, sign * Real.sqrt (first.radicand second)⟩ := by
    rw [← sub_sub_sub_cancel_right _ _ first.center, straight,
      crossing_eq meets.apart sign straight, Complex.mk_eq_add_mul_I, Complex.mk_eq_add_mul_I]
    push_cast
    ring
  rw [shifted, norm_mul, length, one_mul]
  apply (sq_eq_sq₀ (norm_nonneg _) radius).mp
  rw [sq_norm_mk, mul_pow, unit, Real.sq_sqrt meets.nonneg, radicand]
  linear_combination -two_along meets.apart

theorem eq_crossing (apart : first.center ≠ second.center) {point : ℂ}
    (onFirst : ‖point - first.center‖ = first.radius)
    (onSecond : ‖point - second.center‖ = second.radius) :
    point = first.crossing second 1 ∨ point = first.crossing second (-1) := by
  obtain ⟨direction, length, straight⟩ := exists_direction apart
  have nonzero : direction ≠ 0 := norm_ne_zero_iff.mp (by rw [length]; exact one_ne_zero)
  obtain ⟨⟨re, im⟩, rfl⟩ : ∃ beyond : ℂ, point = first.center + direction * beyond :=
    ⟨(point - first.center) / direction, by field_simp; ring⟩
  have shifted : first.center + direction * ⟨re, im⟩ - second.center =
      direction * ⟨re - first.distance second, im⟩ := by
    rw [← sub_sub_sub_cancel_right _ _ first.center, straight, Complex.mk_eq_add_mul_I,
      Complex.mk_eq_add_mul_I]
    push_cast
    ring
  rw [add_sub_cancel_left, norm_mul, length, one_mul] at onFirst
  rw [shifted, norm_mul, length, one_mul] at onSecond
  have square := sq_norm_mk re im
  have squareShifted := sq_norm_mk (re - first.distance second) im
  rw [onFirst] at square
  rw [onSecond] at squareShifted
  have abscissa : re = first.along second := by
    have positive := distance_pos apart
    have twice : 2 * first.distance second * re = 2 * first.distance second * first.along second := by
      rw [two_along apart]
      linear_combination squareShifted - square
    exact mul_left_cancel₀ (mul_ne_zero two_ne_zero positive.ne') twice
  have height : im ^ 2 = first.radicand second := by
    rw [radicand, ← abscissa]
    linarith
  rw [crossing_eq apart _ straight, crossing_eq apart _ straight, ← abscissa, ← height,
    Real.sqrt_sq_eq_abs, one_mul, neg_one_mul]
  rcases abs_choice im with positive | negative
  · exact .inl (by rw [positive])
  · exact .inr (by rw [negative, neg_neg])

end RealCircle

variable {κ : Type} [Scalar κ]

section

variable [Exact κ] {assignment : Assignment}

/-- The expression takes the angle, but for full turns. -/
def Expr.TakesAngle (assignment : Assignment) (expr : Expr κ) (angle : ℝ) : Prop :=
  ∃ value : ℝ, expr.Takes assignment value ∧ (value : Real.Angle) = angle

theorem Expr.takesAngle_of_takes {exprs : List (Expr κ)} {values angles : List ℝ}
    (takes : List.Forall₂ (Expr.Takes assignment) exprs values)
    (same : List.Forall₂ (fun value angle : ℝ => (value : Real.Angle) = angle) values angles) :
    List.Forall₂ (Expr.TakesAngle assignment) exprs angles := by
  induction takes generalizing angles with
  | nil =>
      cases same
      exact .nil
  | cons first _ ih =>
      cases same with
      | cons head rest => exact .cons ⟨_, first, head⟩ (ih rest)

namespace PlanePoint

/-- The coordinates of a point have the values of those of a complex number. -/
structure Takes (assignment : Assignment) (point : PlanePoint κ) (value : ℂ) : Prop where
  x : point.x.Takes assignment value.re
  y : point.y.Takes assignment value.im

variable {p q : PlanePoint κ} {v w : ℂ}

theorem Takes.add (left : p.Takes assignment v) (right : q.Takes assignment w) :
    (p + q).Takes assignment (v + w) :=
  ⟨Expr.takes_plus left.x right.x, Expr.takes_plus left.y right.y⟩

theorem Takes.sub (left : p.Takes assignment v) (right : q.Takes assignment w) :
    (p - q).Takes assignment (v - w) :=
  ⟨Expr.takes_minus left.x right.x, Expr.takes_minus left.y right.y⟩

theorem Takes.scale (takes : p.Takes assignment v) {factor : Expr κ} {value : ℝ}
    (scaled : factor.Takes assignment value) : (p.scale factor).Takes assignment (v * value) := by
  constructor
  · rw [Complex.re_mul_ofReal]
    exact Expr.takes_times takes.x scaled
  · rw [Complex.im_mul_ofReal]
    exact Expr.takes_times takes.y scaled

theorem Takes.dot (left : p.Takes assignment v) (right : q.Takes assignment w) :
    (p.dot q).Takes assignment (inner ℝ v w) := by
  have product : inner ℝ v w = v.re * w.re + v.im * w.im := by
    simp [Complex.inner, mul_comm]
  rw [product]
  exact Expr.takes_plus (Expr.takes_times left.x right.x) (Expr.takes_times left.y right.y)

theorem Takes.lengthSquared (takes : p.Takes assignment v) :
    p.lengthSquared.Takes assignment (‖v‖ ^ 2) := by
  rw [← real_inner_self_eq_norm_sq]
  exact takes.dot takes

theorem takes_squareRoot {expr : Expr κ} {value : ℝ} (takes : expr.Takes assignment value)
    (nonneg : 0 ≤ value) : expr.squareRoot.Takes assignment (Real.sqrt value) :=
  Expr.takes_apply takes (if_pos nonneg)

theorem Takes.length (takes : p.Takes assignment v) : p.length.Takes assignment ‖v‖ := by
  rw [← Real.sqrt_sq (norm_nonneg v)]
  exact takes_squareRoot takes.lengthSquared (sq_nonneg _)

theorem Takes.angle (takes : p.Takes assignment v) : p.angle.Takes assignment v.arg :=
  Expr.takes_angleOf takes.y takes.x

theorem Takes.rotate (takes : p.Takes assignment v) {angle : Expr κ} {value : ℝ}
    (turned : angle.Takes assignment value) :
    (p.rotate angle).Takes assignment (heading value * v) := by
  have cosine : angle.cos.Takes assignment (Real.cos value) :=
    Expr.takes_apply turned (if_pos trivial)
  have sine : angle.sin.Takes assignment (Real.sin value) :=
    Expr.takes_apply turned (if_pos trivial)
  rw [heading_eq, mul_comm]
  exact ⟨Expr.takes_minus (Expr.takes_times takes.x cosine) (Expr.takes_times takes.y sine),
    Expr.takes_plus (Expr.takes_times takes.x sine) (Expr.takes_times takes.y cosine)⟩

theorem Takes.perpendicular (takes : p.Takes assignment v) :
    p.perpendicular.Takes assignment (I * v) := by
  constructor
  · rw [Complex.I_mul_re]
    exact Expr.takes_negate takes.y
  · rw [Complex.I_mul_im]
    exact takes.x

end PlanePoint

/-- The center and the radius have the values of those of a circle of complex numbers. -/
structure Circle.Takes (assignment : Assignment) (circle : Circle κ) (value : RealCircle) : Prop where
  center : circle.center.Takes assignment value.center
  radius : circle.radius.Takes assignment value.radius

theorem Circle.Takes.intersection {first second : Circle κ} {v w : RealCircle}
    (left : first.Takes assignment v) (right : second.Takes assignment w) (meets : v.Meets w) (sign : κ) :
    (first.intersection second sign).Takes assignment (v.crossing w (Exact.real sign)) := by
  have positive := RealCircle.distance_pos meets.apart
  have between := right.center.sub left.center
  have distance := PlanePoint.takes_squareRoot between.lengthSquared (sq_nonneg _)
  rw [Real.sqrt_sq (norm_nonneg _)] at distance
  have along := Expr.takes_dividedBy
    (Expr.takes_plus (Expr.takes_minus (Expr.takes_square left.radius)
      (Expr.takes_square right.radius)) between.lengthSquared)
    (Expr.takes_times (Expr.takes_integer 2) distance) (mul_ne_zero two_ne_zero positive.ne')
  have height := PlanePoint.takes_squareRoot
    (Expr.takes_minus (Expr.takes_square left.radius) (Expr.takes_square along)) meets.nonneg
  exact (left.center.add (between.scale (Expr.takes_dividedBy along distance positive.ne'))).add
    (between.perpendicular.scale (Expr.takes_times (Expr.takes_number sign)
      (Expr.takes_dividedBy height distance positive.ne')))

end

namespace Axis

/-- The component of space that is the real part in the motion plane. -/
def abscissa : Axis → Fin 3
  | x => 1
  | y => 2
  | z => 0

/-- The component of space that is the imaginary part in the motion plane. -/
def ordinate : Axis → Fin 3
  | x => 2
  | y => 0
  | z => 1

/-- The component of space that is not in the motion plane. -/
def apart : Axis → Fin 3
  | x => 0
  | y => 1
  | z => 2

theorem plane_eq (axis : Axis) : axis.plane = (axis.abscissa.val, axis.ordinate.val) := by
  cases axis <;> rfl

/-- The two components in the motion plane. -/
def inPlane (axis : Axis) : Set (Fin 3) := {axis.abscissa, axis.ordinate}

theorem mem_inPlane {axis : Axis} {index : Fin 3} :
    index ∈ axis.inPlane ↔ index = axis.abscissa ∨ index = axis.ordinate := Iff.rfl

theorem abscissa_inPlane (axis : Axis) : axis.abscissa ∈ axis.inPlane := Set.mem_insert _ _

theorem ordinate_inPlane (axis : Axis) : axis.ordinate ∈ axis.inPlane := Set.mem_insert_of_mem _ rfl

def shadow (axis : Axis) (vector : Fin 3 → ℝ) : ℂ := ⟨vector axis.abscissa, vector axis.ordinate⟩

variable (axis : Axis)

@[simp] theorem shadow_zero : axis.shadow 0 = 0 := rfl

@[simp] theorem shadow_add (left right : Fin 3 → ℝ) :
    axis.shadow (left + right) = axis.shadow left + axis.shadow right := rfl

@[simp] theorem shadow_sub (left right : Fin 3 → ℝ) :
    axis.shadow (left - right) = axis.shadow left - axis.shadow right := rfl

@[simp] theorem shadow_smul (factor : ℝ) (vector : Fin 3 → ℝ) :
    axis.shadow (factor • vector) = factor * axis.shadow vector := by
  apply Complex.ext <;> simp [shadow]

@[simp] theorem shadow_turn (angle : ℝ) (vector : Fin 3 → ℝ) :
    axis.shadow ((axis.turn angle).mulVec vector) = heading angle * axis.shadow vector := by
  rw [heading_eq]
  cases axis <;> apply Complex.ext <;>
    simp [shadow, turn, abscissa, ordinate, Matrix.mulVec, dotProduct, Fin.sum_univ_three] <;> ring

@[simp] theorem turn_zero : axis.turn 0 = 1 := by
  cases axis <;> ext row column <;> fin_cases row <;> fin_cases column <;> simp [turn]

theorem turn_add (first second : ℝ) :
    axis.turn (first + second) = axis.turn first * axis.turn second := by
  cases axis <;> ext row column <;> fin_cases row <;> fin_cases column <;>
    simp [turn, Matrix.mul_apply, Fin.sum_univ_three, Real.cos_add, Real.sin_add] <;> ring

theorem keeps_inPlane [Exact κ] : axis.Keeps κ axis.inPlane := by
  intro angle row member column hidden
  rw [mem_inPlane] at member hidden
  cases axis <;> fin_cases row <;> fin_cases column <;>
    first
    | exact Expr.isZero_zero
    | exact absurd (by decide) hidden
    | exact absurd member (by decide)

end Axis

/-- An offset as it is seen in the motion plane of an axis. -/
noncomputable def Tensor.shadowIn [Exact κ] (assignment : Assignment)
    (axis : Axis) (offset : Tensor κ) : ℂ := axis.shadow (offset.vectorIn assignment)

/-- A placement that has only been turned about an axis, as it is seen in the plane of that. -/
structure Placement.Planar (axis : Axis) (placement : Placement) (origin : ℂ) (angle : ℝ) : Prop where
  position : axis.shadow placement.position = origin
  rotation : placement.rotation = axis.turn angle

namespace Placement.Planar

variable {axis : Axis} {placement : Placement} {origin : ℂ} {angle : ℝ}

theorem start : Placement.start.Planar axis 0 0 := ⟨rfl, axis.turn_zero.symm⟩

theorem locate (planar : placement.Planar axis origin angle) (offset : Fin 3 → ℝ) :
    axis.shadow (placement.locate offset) = origin + heading angle * axis.shadow offset := by
  rw [Placement.locate, Axis.shadow_add, planar.position, planar.rotation, Axis.shadow_turn]

variable [Exact κ] {assignment : Assignment} {joint : Joint κ}

theorem revolute (planar : placement.Planar axis origin angle)
    (motion : joint.motion = .revolute axis) :
    (placement.moveBy assignment joint).Planar axis
      (origin + heading angle * joint.anchor.shadowIn assignment axis)
      (angle + joint.coordinate.valueIn assignment) := by
  constructor
  · simp only [moveBy, motion, planar.locate, Tensor.shadowIn]
  · simp only [moveBy, motion, planar.rotation, Axis.turn_add]

theorem prismatic (planar : placement.Planar axis origin angle) {direction : Direction κ}
    (motion : joint.motion = .prismatic direction) :
    (placement.moveBy assignment joint).Planar axis
      (origin + heading angle * joint.anchor.shadowIn assignment axis +
        heading angle * (joint.coordinate.valueIn assignment * axis.shadow direction.vector)) angle := by
  have anchored : (Placement.mk (placement.locate (joint.anchor.vectorIn assignment))
      placement.rotation).Planar axis
        (origin + heading angle * joint.anchor.shadowIn assignment axis) angle :=
    ⟨planar.locate _, planar.rotation⟩
  constructor
  · simp only [moveBy, motion, anchored.locate, Axis.shadow_smul]
  · simp only [moveBy, motion, planar.rotation]

end Placement.Planar

namespace PlanePoint

def ofOffset (axis : Axis) (offset : Tensor κ) : PlanePoint κ :=
  ⟨offset.component axis.abscissa, offset.component axis.ordinate⟩

theorem project_eq_ok {axis : Axis} {offset : Tensor κ} {point : PlanePoint κ}
    (projected : project axis offset = .ok point) : point = ofOffset axis offset := by
  simp only [project, axis.plane_eq, bind_eq_ok] at projected
  obtain ⟨x, first, y, second, same⟩ := projected
  cases same
  rw [ofOffset, Tensor.component_eq_of_entryAt first, Tensor.component_eq_of_entryAt second]

theorem takes_ofOffset [Exact κ] {assignment : Assignment} {axis : Axis} {offset : Tensor κ}
    (defined : ∀ index ∈ axis.inPlane, (offset.component index).Defined assignment) :
    (ofOffset axis offset).Takes assignment (offset.shadowIn assignment axis) :=
  ⟨(defined _ axis.abscissa_inPlane).takes, (defined _ axis.ordinate_inPlane).takes⟩

theorem takes_direction [Exact κ] {assignment : Assignment} (axis : Axis)
    (direction : Direction κ) :
    (ofOffset axis (.ofColumn (direction.toList.map Expr.number))).Takes assignment
      (axis.shadow direction.vector) := by
  cases axis <;> exact ⟨Expr.takes_number _, Expr.takes_number _⟩

end PlanePoint

end Mechanism
