import Mechanism.Proofs.Loop.Closure

/-!
Loops with a slider, whose travel is a root of a quadratic equation: two mechanisms with the slider
on a pivot, and the crank with a rod on a slider of the base. The root makes two vectors equally
long, so that one can be turned into the other.
-/

namespace Mechanism

open scoped InnerProductSpace

theorem sq_norm_add_mul {direction : ℂ} (unit : ‖direction‖ = 1) (offset : ℂ) (travel : ℝ) :
    ‖offset + direction * travel‖ ^ 2 =
      (travel + ⟪offset, direction⟫_ℝ) ^ 2 - ⟪offset, direction⟫_ℝ ^ 2 + ‖offset‖ ^ 2 := by
  have length : ‖direction * travel‖ ^ 2 = travel ^ 2 := by
    rw [norm_mul, unit, one_mul, Complex.norm_real, Real.norm_eq_abs, sq_abs]
  have product : ⟪offset, direction * travel⟫_ℝ = travel * ⟪offset, direction⟫_ℝ := by
    rw [mul_comm, ← Complex.real_smul, inner_smul_right]
  rw [norm_add_sq_real, length, product]
  ring

theorem sq_norm_sub_mul {direction : ℂ} (unit : ‖direction‖ = 1) (target : ℂ) (travel : ℝ) :
    ‖target - direction * travel‖ ^ 2 =
      (travel - ⟪target, direction⟫_ℝ) ^ 2 - ⟪target, direction⟫_ℝ ^ 2 + ‖target‖ ^ 2 := by
  have shifted := sq_norm_add_mul unit target (-travel)
  rw [Complex.ofReal_neg, mul_neg, ← sub_eq_add_neg] at shifted
  rw [shifted]
  ring

namespace Loop

variable {κ : Type} [Scalar κ] [Exact κ] {assignment : Assignment}

theorem PivotedSlider.takes_reach (link : PivotedSlider κ) {goal : PlanePoint κ}
    {offset direction target : ℂ} (apart : link.offset.Takes assignment offset)
    (slides : link.direction.Takes assignment direction) (seen : goal.Takes assignment target)
    {travel : ℝ} (root : travel = -⟪offset, direction⟫_ℝ +
      Real.sqrt (⟪offset, direction⟫_ℝ ^ 2 - ‖offset‖ ^ 2 + ‖target‖ ^ 2))
    (nonneg : 0 ≤ ⟪offset, direction⟫_ℝ ^ 2 - ‖offset‖ ^ 2 + ‖target‖ ^ 2) :
    (link.reach goal).1.Takes assignment travel ∧
      (link.reach goal).2.Takes assignment
        (target.arg - (offset + direction * travel).arg) := by
  subst root
  have along := apart.dot slides
  have travelled := Expr.takes_plus (Expr.takes_negate along)
    (PlanePoint.takes_squareRoot (Expr.takes_plus (Expr.takes_minus (Expr.takes_square along)
      apart.lengthSquared) seen.lengthSquared) nonneg)
  exact ⟨travelled, Expr.takes_minus seen.angle (apart.add (slides.scale travelled)).angle⟩

theorem SlidingRod.takes_reach (link : SlidingRod κ) {goal : PlanePoint κ}
    {direction rod target : ℂ} (slides : link.direction.Takes assignment direction)
    (far : link.rod.Takes assignment rod) (seen : goal.Takes assignment target) (sign : κ)
    {travel : ℝ} (root : travel = ⟪target, direction⟫_ℝ + Exact.real sign *
      Real.sqrt (⟪target, direction⟫_ℝ ^ 2 - ‖target‖ ^ 2 + ‖rod‖ ^ 2))
    (nonneg : 0 ≤ ⟪target, direction⟫_ℝ ^ 2 - ‖target‖ ^ 2 + ‖rod‖ ^ 2) :
    (link.reach sign goal).1.Takes assignment travel ∧
      (link.reach sign goal).2.Takes assignment ((target - direction * travel).arg - rod.arg) := by
  subst root
  have along := seen.dot slides
  have travelled := Expr.takes_plus along (Expr.takes_times (Expr.takes_number sign)
    (PlanePoint.takes_squareRoot (Expr.takes_plus (Expr.takes_minus (Expr.takes_square along)
      seen.lengthSquared) far.lengthSquared) nonneg))
  exact ⟨travelled, Expr.takes_minus (seen.sub (slides.scale travelled)).angle far.angle⟩

namespace Problem

variable {problem : Problem κ} {geometry : Geometry κ} {a b : List JointId} {axis : Axis}
  {direction : Direction κ}

def sliderLink (problem : Problem κ) (axis : Axis) (slider : Joint κ) (direction : Direction κ) :
    PivotedSlider κ where
  offset := .ofOffset axis slider.anchor + .ofOffset axis problem.request.frameB.position
  direction := .ofOffset axis (.ofColumn (direction.toList.map Expr.number))

/-- A slider on a pivot against a branch of joints that drive, and its solution. -/
structure IsPivotedSlider (problem : Problem κ) (geometry : Geometry κ) (axis : Axis)
    (first : List (Joint κ)) (pivot slider : Joint κ) (direction : Direction κ) : Prop where
  planar : problem.Planar geometry axis first [pivot, slider] first [slider, pivot]
  pivotTurns : pivot.motion = .revolute axis
  sliderSlides : slider.motion = .prismatic direction
  solution : ∃ target : PlanePoint κ, (∀ assignment,
      problem.Measured geometry axis.inPlane assignment → target.Takes assignment
        (axis.shadow (locate assignment first problem.request.frameA) -
          pivot.anchor.shadowIn assignment axis)) ∧
    geometry.solution =
      let (travel, pivotAngle) := (problem.sliderLink axis slider direction).reach target
      [travel, pivotAngle]

omit [Exact κ] in
theorem sliderOffset_eq_ok {id : JointId} {slider : Joint κ} {point : PlanePoint κ}
    (known : problem.chain.joint? id = some slider)
    (found : problem.sliderOffset axis id = .ok point) :
    point = .ofOffset axis slider.anchor + .ofOffset axis problem.request.frameB.position := by
  simp only [sliderOffset, bind_eq_ok] at found
  obtain ⟨_, foundAnchor, _, foundTip, same⟩ := found
  obtain rfl := anchorInPlane_eq_ok known foundAnchor
  obtain rfl := inPlane_eq_ok foundTip
  cases same
  rfl

theorem fourBarTrans_eq_ok (legs : problem.legs = (problem.jointsOf a, problem.jointsOf b))
    (solved : problem.fourBarTrans a b = .ok geometry) :
    ∃ axis first pivot slider direction,
      problem.IsPivotedSlider geometry axis first pivot slider direction := by
  simp only [fourBarTrans, bind_eq_ok, Prod.exists, twoJoints_eq_ok] at solved
  obtain ⟨crankId, couplerId, rfl, pivotId, sliderId, rfl, axis, common, _, foundDirection, u, v,
    parted, _, foundCrankAngle, _, foundCouplerAngle, _, foundCrankPivot, _, foundCrank, _,
    foundCoupler, _, foundPivot, _, foundOffset, constraint, matched, same⟩ := solved
  have turns := commonAxis_eq_ok common
  obtain ⟨crank, knownCrank, crankTurns⟩ := turns crankId (by simp)
  obtain ⟨coupler, knownCoupler, couplerTurns⟩ := turns couplerId (by simp)
  obtain ⟨pivot, knownPivot, pivotTurns⟩ := turns pivotId (by simp)
  obtain ⟨slider, direction, knownSlider, sliderSlides, rfl⟩ := directionInPlane_eq_ok foundDirection
  obtain ⟨rfl, rfl⟩ := partition_eq_ok parted
  obtain rfl := position_eq_ok knownCrank foundCrankAngle
  obtain rfl := position_eq_ok knownCoupler foundCouplerAngle
  obtain rfl := anchorInPlane_eq_ok knownCrank foundCrankPivot
  obtain rfl := anchorInPlane_eq_ok knownCoupler foundCrank
  obtain rfl := inPlane_eq_ok foundCoupler
  obtain rfl := anchorInPlane_eq_ok knownPivot foundPivot
  obtain rfl := sliderOffset_eq_ok knownSlider foundOffset
  have first : problem.jointsOf [crankId, couplerId] = [crank, coupler] := by
    simp [jointsOf, knownCrank, knownCoupler]
  have second : problem.jointsOf [pivotId, sliderId] = [pivot, slider] := by
    simp [jointsOf, knownPivot, knownSlider]
  have planar : problem.Planar geometry axis [crank, coupler] [pivot, slider] [crank, coupler]
      [slider, pivot] := by
    cases same
    constructor
    · rw [legs, first, second]
    · simp [crankTurns, couplerTurns, pivotTurns, sliderSlides]
    · rw [first]
    · simp [jointsOf, knownSlider, knownPivot]
    · simp
    · exact ⟨_, _, first, second, matched⟩
  refine ⟨axis, _, pivot, slider, direction, planar, pivotTurns, sliderSlides, _, ?_,
    by cases same; rfl⟩
  intro assignment measured
  have anchor (joint : Joint κ) (member : joint ∈ [crank, coupler] ++ [pivot, slider]) :=
    measured.takes_point (planar.anchor_mem_offsets joint member)
  have crankAngle := measured.takes_driver (planar.driver_mem crank (by simp))
  have couplerAngle := measured.takes_driver (planar.driver_mem coupler (by simp))
  have placed : (Placement.behind assignment [crank, coupler]).Planar axis _ _ :=
    (Placement.Planar.start.revolute crankTurns).revolute couplerTurns
  rw [shadow_locate placed]
  simp only [heading_zero, zero_add, one_mul]
  exact (((anchor crank (by simp)).add ((anchor coupler (by simp)).rotate crankAngle)).add
    ((measured.takes_point problem.frameA_mem_offsets).rotate
      (Expr.takes_plus crankAngle couplerAngle))).sub (anchor pivot (by simp))

theorem threeBarTrans_eq_ok (legs : problem.legs = (problem.jointsOf a, problem.jointsOf b))
    (solved : problem.threeBarTrans a b = .ok geometry) :
    ∃ axis first pivot slider direction,
      problem.IsPivotedSlider geometry axis first pivot slider direction := by
  simp only [threeBarTrans, bind_eq_ok, Prod.exists, twoJoints_eq_ok, oneJoint_eq_ok] at solved
  obtain ⟨crankId, rfl, pivotId, sliderId, rfl, axis, common, _, foundDirection, u, v, parted, _,
    foundCrankAngle, _, foundCrankPivot, _, foundCrank, _, foundPivot, _, foundOffset, constraint,
    matched, same⟩ := solved
  have turns := commonAxis_eq_ok common
  obtain ⟨crank, knownCrank, crankTurns⟩ := turns crankId (by simp)
  obtain ⟨pivot, knownPivot, pivotTurns⟩ := turns pivotId (by simp)
  obtain ⟨slider, direction, knownSlider, sliderSlides, rfl⟩ := directionInPlane_eq_ok foundDirection
  obtain ⟨rfl, rfl⟩ := partition_eq_ok parted
  obtain rfl := position_eq_ok knownCrank foundCrankAngle
  obtain rfl := anchorInPlane_eq_ok knownCrank foundCrankPivot
  obtain rfl := inPlane_eq_ok foundCrank
  obtain rfl := anchorInPlane_eq_ok knownPivot foundPivot
  obtain rfl := sliderOffset_eq_ok knownSlider foundOffset
  have first : problem.jointsOf [crankId] = [crank] := by simp [jointsOf, knownCrank]
  have second : problem.jointsOf [pivotId, sliderId] = [pivot, slider] := by
    simp [jointsOf, knownPivot, knownSlider]
  have planar : problem.Planar geometry axis [crank] [pivot, slider] [crank] [slider, pivot] := by
    cases same
    constructor
    · rw [legs, first, second]
    · simp [crankTurns, pivotTurns, sliderSlides]
    · rw [first]
    · simp [jointsOf, knownSlider, knownPivot]
    · simp
    · exact ⟨_, _, first, second, matched⟩
  refine ⟨axis, _, pivot, slider, direction, planar, pivotTurns, sliderSlides, _, ?_,
    by cases same; rfl⟩
  intro assignment measured
  have anchor (joint : Joint κ) (member : joint ∈ [crank] ++ [pivot, slider]) :=
    measured.takes_point (planar.anchor_mem_offsets joint member)
  have crankAngle := measured.takes_driver (planar.driver_mem crank (by simp))
  have placed : (Placement.behind assignment [crank]).Planar axis _ _ :=
    Placement.Planar.start.revolute crankTurns
  rw [shadow_locate placed]
  simp only [heading_zero, zero_add, one_mul]
  exact ((anchor crank (by simp)).add
    ((measured.takes_point problem.frameA_mem_offsets).rotate crankAngle)).sub
      (anchor pivot (by simp))

namespace IsPivotedSlider

variable {first : List (Joint κ)} {pivot slider : Joint κ}

noncomputable def arm (problem : Problem κ) (assignment : Assignment) (axis : Axis)
    (slider : Joint κ) : ℂ :=
  slider.anchor.shadowIn assignment axis + problem.request.frameB.position.shadowIn assignment axis

noncomputable def target (problem : Problem κ) (assignment : Assignment) (axis : Axis)
    (first : List (Joint κ)) (pivot : Joint κ) : ℂ :=
  axis.shadow (locate assignment first problem.request.frameA) -
    pivot.anchor.shadowIn assignment axis

/-- What the travel of the slider is a root of. -/
noncomputable def radicand (problem : Problem κ) (assignment : Assignment) (axis : Axis)
    (first : List (Joint κ)) (pivot slider : Joint κ) (direction : Direction κ) : ℝ :=
  ⟪arm problem assignment axis slider, axis.shadow direction.vector⟫_ℝ ^ 2 -
    ‖arm problem assignment axis slider‖ ^ 2 + ‖target problem assignment axis first pivot‖ ^ 2

theorem closedAt_iff (linkage : problem.IsPivotedSlider geometry axis first pivot slider direction)
    (settled : problem.Solved geometry) (measured : problem.Measured geometry axis.inPlane assignment)
    {travel pivotAngle : ℝ} :
    geometry.ClosedAt assignment [travel, pivotAngle] ↔
      target problem assignment axis first pivot =
        heading pivotAngle *
          (arm problem assignment axis slider + axis.shadow direction.vector * travel) := by
  have planar := linkage.planar
  have second : (Placement.behind (geometry.posed assignment [travel, pivotAngle])
      [pivot, slider]).Planar axis _ _ :=
    (Placement.Planar.start.revolute linkage.pivotTurns).prismatic linkage.sliderSlides
  have fixed : locate (geometry.posed assignment [travel, pivotAngle]) first problem.request.frameA =
      locate assignment first problem.request.frameA :=
    settled.locate_posed
      (fun joint member => planar.anchor_mem_offsets joint (List.mem_append_left _ member))
      planar.driver_mem problem.frameA_mem_offsets
  rw [planar.closedAt_iff settled measured (by simp [planar.dependent]), fixed,
    shadow_locate second, settled.valueIn_driven 1 (by rw [planar.dependent]; rfl) rfl,
    settled.valueIn_driven 0 (by rw [planar.dependent]; rfl) rfl,
    settled.shadowIn_posed problem.frameB_mem_offsets, planar.anchor_posed settled pivot (by simp),
    planar.anchor_posed settled slider (by simp), target, arm, sub_eq_iff_eq_add]
  simp only [heading_zero, zero_add, one_mul]
  ring_nf

/-- The solution slides the end of the slider as far from the pivot as the target is, and turns it
there. -/
theorem closes (linkage : problem.IsPivotedSlider geometry axis first pivot slider direction)
    (settled : problem.Solved geometry) (measured : problem.Measured geometry axis.inPlane assignment)
    (unit : ‖axis.shadow direction.vector‖ = 1)
    (nonneg : 0 ≤ radicand problem assignment axis first pivot slider direction) :
    geometry.Closes assignment 2 := by
  have planar := linkage.planar
  have anchor (joint : Joint κ) (member : joint ∈ first ++ [pivot, slider]) :=
    measured.takes_point (planar.anchor_mem_offsets joint member)
  obtain ⟨goal, seen, solution⟩ := linkage.solution
  obtain ⟨travel, root⟩ : ∃ travel, travel =
      -⟪arm problem assignment axis slider, axis.shadow direction.vector⟫_ℝ +
        Real.sqrt (radicand problem assignment axis first pivot slider direction) := ⟨_, rfl⟩
  obtain ⟨travelled, turned⟩ := (problem.sliderLink axis slider direction).takes_reach
    ((anchor slider (by simp)).add (measured.takes_point problem.frameB_mem_offsets))
    (PlanePoint.takes_direction axis direction) (seen assignment measured) root nonneg
  have takes : List.Forall₂ (Expr.Takes assignment) geometry.solution [travel,
      (target problem assignment axis first pivot).arg -
        (arm problem assignment axis slider + axis.shadow direction.vector * travel).arg] := by
    rw [solution]
    exact .cons travelled (.cons turned .nil)
  have length : ‖arm problem assignment axis slider + axis.shadow direction.vector * travel‖ =
      ‖target problem assignment axis first pivot‖ := by
    apply (sq_eq_sq₀ (norm_nonneg _) (norm_nonneg _)).mp
    rw [sq_norm_add_mul unit, root, neg_add_cancel_comm, Real.sq_sqrt nonneg, radicand]
    ring
  refine planar.closes settled measured takes ?_
  rw [linkage.closedAt_iff settled measured, heading_arg_sub_arg_mul length]

end IsPivotedSlider

variable {posture : Posture}

def rodLink (problem : Problem κ) (axis : Axis) (direction : Direction κ) : SlidingRod κ where
  direction := .ofOffset axis (.ofColumn (direction.toList.map Expr.number))
  rod := .ofOffset axis problem.request.frameB.position

/-- Where the far end of the rod is to be, from its near end before that slides. -/
def rodGoal (problem : Problem κ) (axis : Axis) (crank slider rod : Joint κ) : PlanePoint κ :=
  .ofOffset axis crank.anchor + (PlanePoint.ofOffset axis problem.request.frameA.position).rotate
    crank.coordinate.positionExpr - .ofOffset axis slider.anchor - .ofOffset axis rod.anchor

/-- A crank against a rod on a slider, and its solution in one posture. -/
structure IsCrankSlider (problem : Problem κ) (geometry : Geometry κ) (posture : Posture)
    (axis : Axis) (crank slider rod : Joint κ) (direction : Direction κ) : Prop where
  planar : problem.Planar geometry axis [crank] [slider, rod] [crank] [slider, rod]
  crankTurns : crank.motion = .revolute axis
  sliderSlides : slider.motion = .prismatic direction
  rodTurns : rod.motion = .revolute axis
  solution : geometry.solution =
    let (travel, rodAngle) := (problem.rodLink axis direction).reach posture.sign
      (problem.rodGoal axis crank slider rod)
    [travel, rodAngle]

omit [Exact κ] in
theorem exists_crankSlider (solved : problem.crankSlider posture a b = .ok geometry)
    (other : Posture) : ∃ result, problem.crankSlider other a b = .ok result := by
  simp only [crankSlider, bind_eq_ok, Prod.exists] at solved ⊢
  obtain ⟨crank, one, slider, rod, two, axis, common, p, foundP, u, v, parted, q, foundQ, r, foundR,
    s, foundS, t, foundT, w, foundW, z, foundZ, constraint, matched, _⟩ := solved
  exact ⟨_, crank, one, slider, rod, two, axis, common, p, foundP, u, v, parted, q, foundQ, r, foundR,
    s, foundS, t, foundT, w, foundW, z, foundZ, constraint, matched, rfl⟩

omit [Exact κ] in
theorem crankSlider_eq_ok (legs : problem.legs = (problem.jointsOf a, problem.jointsOf b))
    (solved : problem.crankSlider posture a b = .ok geometry) :
    ∃ axis crank slider rod direction,
      problem.IsCrankSlider geometry posture axis crank slider rod direction := by
  simp only [crankSlider, bind_eq_ok, Prod.exists, twoJoints_eq_ok, oneJoint_eq_ok] at solved
  obtain ⟨crankId, rfl, sliderId, rodId, rfl, axis, common, _, foundDirection, u, v, parted, _,
    foundCrankAngle, _, foundCrankPivot, _, foundCrank, _, foundSlider, _, foundRodPivot, _, foundRod,
    constraint, matched, same⟩ := solved
  have turns := commonAxis_eq_ok common
  obtain ⟨crank, knownCrank, crankTurns⟩ := turns crankId (by simp)
  obtain ⟨rod, knownRod, rodTurns⟩ := turns rodId (by simp)
  obtain ⟨slider, direction, knownSlider, sliderSlides, rfl⟩ := directionInPlane_eq_ok foundDirection
  obtain ⟨rfl, rfl⟩ := partition_eq_ok parted
  obtain rfl := position_eq_ok knownCrank foundCrankAngle
  obtain rfl := anchorInPlane_eq_ok knownCrank foundCrankPivot
  obtain rfl := inPlane_eq_ok foundCrank
  obtain rfl := anchorInPlane_eq_ok knownSlider foundSlider
  obtain rfl := anchorInPlane_eq_ok knownRod foundRodPivot
  obtain rfl := inPlane_eq_ok foundRod
  cases same
  have first : problem.jointsOf [crankId] = [crank] := by simp [jointsOf, knownCrank]
  have second : problem.jointsOf [sliderId, rodId] = [slider, rod] := by
    simp [jointsOf, knownSlider, knownRod]
  refine ⟨axis, crank, slider, rod, direction, ?_, crankTurns, sliderSlides, rodTurns, rfl⟩
  constructor
  · rw [legs, first, second]
  · simp [crankTurns, sliderSlides, rodTurns]
  · rw [first]
  · rw [second]
  · simp
  · exact ⟨_, _, first, second, matched⟩

/-- The first expression takes the travel, and the second one the angle, but for full turns. -/
def TakesTravelAndAngle (assignment : Assignment) : List (Expr κ) → List ℝ → Prop
  | [travel, angle], [x, y] => travel.Takes assignment x ∧ angle.TakesAngle assignment y
  | _, _ => False

namespace IsCrankSlider

variable {crank slider rod : Joint κ}

noncomputable def target (problem : Problem κ) (assignment : Assignment) (axis : Axis)
    (crank slider rod : Joint κ) : ℂ :=
  axis.shadow (locate assignment [crank] problem.request.frameA) -
    slider.anchor.shadowIn assignment axis - rod.anchor.shadowIn assignment axis

/-- What the travel of the slider is a root of. -/
noncomputable def radicand (problem : Problem κ) (assignment : Assignment) (axis : Axis)
    (crank slider rod : Joint κ) (direction : Direction κ) : ℝ :=
  ⟪target problem assignment axis crank slider rod, axis.shadow direction.vector⟫_ℝ ^ 2 -
    ‖target problem assignment axis crank slider rod‖ ^ 2 +
      ‖problem.request.frameB.position.shadowIn assignment axis‖ ^ 2

theorem closedAt_iff (linkage : problem.IsCrankSlider geometry posture axis crank slider rod direction)
    (settled : problem.Solved geometry) (measured : problem.Measured geometry axis.inPlane assignment)
    {travel rodAngle : ℝ} :
    geometry.ClosedAt assignment [travel, rodAngle] ↔
      target problem assignment axis crank slider rod - axis.shadow direction.vector * travel =
        heading rodAngle * problem.request.frameB.position.shadowIn assignment axis := by
  have planar := linkage.planar
  have second : (Placement.behind (geometry.posed assignment [travel, rodAngle])
      [slider, rod]).Planar axis _ _ :=
    (Placement.Planar.start.prismatic linkage.sliderSlides).revolute linkage.rodTurns
  have fixed : locate (geometry.posed assignment [travel, rodAngle]) [crank] problem.request.frameA =
      locate assignment [crank] problem.request.frameA :=
    settled.locate_posed
      (fun joint member => planar.anchor_mem_offsets joint (List.mem_append_left _ member))
      planar.driver_mem problem.frameA_mem_offsets
  rw [planar.closedAt_iff settled measured (by simp [planar.dependent]), fixed,
    shadow_locate second, settled.valueIn_driven 0 (by rw [planar.dependent]; rfl) rfl,
    settled.valueIn_driven 1 (by rw [planar.dependent]; rfl) rfl,
    settled.shadowIn_posed problem.frameB_mem_offsets, planar.anchor_posed settled slider (by simp),
    planar.anchor_posed settled rod (by simp), target, sub_eq_iff_eq_add, sub_eq_iff_eq_add,
    sub_eq_iff_eq_add]
  simp only [heading_zero, zero_add, one_mul]
  ring_nf

theorem takes_solution
    (linkage : problem.IsCrankSlider geometry posture axis crank slider rod direction)
    (measured : problem.Measured geometry axis.inPlane assignment)
    (nonneg : 0 ≤ radicand problem assignment axis crank slider rod direction) {travel : ℝ}
    (root : travel =
      ⟪target problem assignment axis crank slider rod, axis.shadow direction.vector⟫_ℝ +
        Exact.real (posture.sign : κ) *
          Real.sqrt (radicand problem assignment axis crank slider rod direction)) :
    List.Forall₂ (Expr.Takes assignment) geometry.solution
      [travel, (target problem assignment axis crank slider rod -
          axis.shadow direction.vector * travel).arg -
        (problem.request.frameB.position.shadowIn assignment axis).arg] := by
  have planar := linkage.planar
  have anchor (joint : Joint κ) (member : joint ∈ [crank] ++ [slider, rod]) :=
    measured.takes_point (planar.anchor_mem_offsets joint member)
  have placed : (Placement.behind assignment [crank]).Planar axis _ _ :=
    Placement.Planar.start.revolute linkage.crankTurns
  have seen : (problem.rodGoal axis crank slider rod).Takes assignment
      (target problem assignment axis crank slider rod) := by
    rw [target, shadow_locate placed]
    simp only [heading_zero, zero_add, one_mul]
    exact (((anchor crank (by simp)).add ((measured.takes_point problem.frameA_mem_offsets).rotate
      (measured.takes_driver (planar.driver_mem crank (by simp))))).sub
        (anchor slider (by simp))).sub (anchor rod (by simp))
  obtain ⟨travelled, turned⟩ := (problem.rodLink axis direction).takes_reach
    (PlanePoint.takes_direction axis direction) (measured.takes_point problem.frameB_mem_offsets)
    seen posture.sign root nonneg
  rw [linkage.solution]
  exact .cons travelled (.cons turned .nil)

theorem closes (linkage : problem.IsCrankSlider geometry posture axis crank slider rod direction)
    (settled : problem.Solved geometry) (measured : problem.Measured geometry axis.inPlane assignment)
    (unit : ‖axis.shadow direction.vector‖ = 1)
    (nonneg : 0 ≤ radicand problem assignment axis crank slider rod direction) :
    geometry.Closes assignment 2 := by
  obtain ⟨travel, root⟩ : ∃ travel, travel =
      ⟪target problem assignment axis crank slider rod, axis.shadow direction.vector⟫_ℝ +
        Exact.real (posture.sign : κ) *
          Real.sqrt (radicand problem assignment axis crank slider rod direction) := ⟨_, rfl⟩
  have length : ‖problem.request.frameB.position.shadowIn assignment axis‖ =
      ‖target problem assignment axis crank slider rod - axis.shadow direction.vector * travel‖ := by
    apply (sq_eq_sq₀ (norm_nonneg _) (norm_nonneg _)).mp
    rw [sq_norm_sub_mul unit, root, add_sub_cancel_left, mul_pow, posture.real_sign_sq,
      Real.sq_sqrt nonneg, radicand]
    ring
  refine linkage.planar.closes settled measured (linkage.takes_solution measured nonneg root) ?_
  rw [linkage.closedAt_iff settled measured, heading_arg_sub_arg_mul length]

omit [Exact κ] in
theorem transfer (linkage : problem.IsCrankSlider geometry posture axis crank slider rod direction)
    {result : Geometry κ} {posture' : Posture} {axis' : Axis} {crank' slider' rod' : Joint κ}
    {direction' : Direction κ}
    (other : problem.IsCrankSlider result posture' axis' crank' slider' rod' direction') :
    problem.IsCrankSlider result posture' axis crank slider rod direction := by
  have legs := linkage.planar.legs.symm.trans other.planar.legs
  simp only [Prod.mk.injEq, List.cons.injEq, and_true] at legs
  obtain ⟨rfl, rfl, rfl⟩ := legs
  have axes := linkage.crankTurns.symm.trans other.crankTurns
  have directions := linkage.sliderSlides.symm.trans other.sliderSlides
  cases axes
  cases directions
  exact other

theorem complete (linkage : problem.IsCrankSlider geometry posture axis crank slider rod direction)
    (settled : problem.Solved geometry) (measured : problem.Measured geometry axis.inPlane assignment)
    (unit : ‖axis.shadow direction.vector‖ = 1)
    (nonneg : 0 ≤ radicand problem assignment axis crank slider rod direction)
    (long : 0 < ‖problem.request.frameB.position.shadowIn assignment axis‖) {x y : ℝ}
    (closed : geometry.ClosedAt assignment [x, y]) :
    ∃ other : Posture, ∀ result : Geometry κ,
      problem.IsCrankSlider result other axis crank slider rod direction →
        TakesTravelAndAngle assignment result.solution [x, y] := by
  rw [linkage.closedAt_iff settled measured] at closed
  have square : (x - ⟪target problem assignment axis crank slider rod,
      axis.shadow direction.vector⟫_ℝ) ^ 2 =
        Real.sqrt (radicand problem assignment axis crank slider rod direction) ^ 2 := by
    have length := sq_norm_sub_mul unit (target problem assignment axis crank slider rod) x
    rw [closed, norm_mul, norm_heading, one_mul] at length
    rw [Real.sq_sqrt nonneg, radicand]
    linarith
  have root : ∃ other : Posture, x = ⟪target problem assignment axis crank slider rod,
      axis.shadow direction.vector⟫_ℝ + Exact.real (other.sign : κ) *
        Real.sqrt (radicand problem assignment axis crank slider rod direction) := by
    apply exists_posture (κ := κ) (fun sign => x = _ + sign * _)
    rcases sq_eq_sq_iff_eq_or_eq_neg.mp square with ahead | behind
    · exact .inl (by linarith)
    · exact .inr (by linarith)
  obtain ⟨other, root⟩ := root
  refine ⟨other, fun result turned => ?_⟩
  have measured' := measured.transfer
    (turned.planar.independent.trans linkage.planar.independent.symm)
  have angle := coe_angle_eq (norm_pos_iff.mp long) closed.symm
  have takes := turned.takes_solution measured' nonneg root
  revert takes
  generalize result.solution = solution
  rintro (_ | ⟨travelled, _ | ⟨turned, _ | _⟩⟩)
  exact ⟨travelled, _, turned, angle.symm⟩

end IsCrankSlider

omit [Exact κ] in
theorem solve_pivotedSlider (branched : problem.chain.branches problem.request.frameA.body
      problem.request.frameB.body = .ok (a, b)) :
    (problem.request.topology = .fourBarTrans → problem.solve = problem.fourBarTrans a b) ∧
      (problem.request.topology = .threeBarTrans → problem.solve = problem.threeBarTrans a b) := by
  constructor <;> intro topology <;> rw [solve, branched, topology] <;> rfl

omit [Exact κ] in
theorem solve_crankSlider (branched : problem.chain.branches problem.request.frameA.body
      problem.request.frameB.body = .ok (a, b))
    (topology : problem.request.topology = .crankSlider posture) :
    problem.solve = problem.crankSlider posture a b ∧
      ∀ other, (problem.withPosture other).solve = problem.crankSlider other a b := by
  obtain ⟨chain, ⟨name, kind, frameA, frameB, independent, dependent⟩⟩ := problem
  subst topology
  simp only at branched
  simp only [solve, withPosture, Topology.withPosture, branched]
  exact ⟨rfl, fun _ => rfl⟩

/-- Where a slider goes in the plane, and what its travel is a root of. -/
structure Slide where
  direction : ℂ
  radicand : ℝ

/-- The slide of a joint, when its travel is a root of the radicand for its direction. -/
noncomputable def slideOf (axis : Axis) (slider : Joint κ) (radicand : Direction κ → ℝ) :
    Option Slide :=
  match slider.motion with
  | .prismatic direction => some ⟨axis.shadow direction.vector, radicand direction⟩
  | .revolute _ => none

noncomputable def slide? (problem : Problem κ) (assignment : Assignment) (axis : Axis) :
    Option Slide :=
  match problem.request.topology, problem.legs with
  | .fourBarTrans, (first, [pivot, slider]) | .threeBarTrans, (first, [pivot, slider]) =>
    slideOf axis slider (IsPivotedSlider.radicand problem assignment axis first pivot slider)
  | .crankSlider _, ([crank], [slider, rod]) =>
    slideOf axis slider (IsCrankSlider.radicand problem assignment axis crank slider rod)
  | _, _ => none

/-- Every loop with a slider that is accepted has an axis and a slide, wherever its joints are. -/
theorem exists_slide (solved : problem.solve = .ok geometry)
    (sliding : problem.request.topology = .fourBarTrans ∨
      problem.request.topology = .threeBarTrans ∨
        ∃ posture, problem.request.topology = .crankSlider posture) :
    ∃ axis, problem.axis? = some axis ∧ ∀ assignment, ∃ slide,
      problem.slide? assignment axis = some slide := by
  obtain ⟨a, b, branched, legs⟩ := exists_branches solved
  rcases sliding with topology | topology | ⟨posture, topology⟩
  · rw [(solve_pivotedSlider branched).1 topology] at solved
    obtain ⟨axis, first, pivot, slider, direction, linkage⟩ := fourBarTrans_eq_ok legs solved
    refine ⟨axis, linkage.planar.axis?_eq (by simp) linkage.pivotTurns, fun assignment => ?_⟩
    simp only [slide?, topology, linkage.planar.legs, slideOf, linkage.sliderSlides]
    exact ⟨_, rfl⟩
  · rw [(solve_pivotedSlider branched).2 topology] at solved
    obtain ⟨axis, first, pivot, slider, direction, linkage⟩ := threeBarTrans_eq_ok legs solved
    refine ⟨axis, linkage.planar.axis?_eq (by simp) linkage.pivotTurns, fun assignment => ?_⟩
    simp only [slide?, topology, linkage.planar.legs, slideOf, linkage.sliderSlides]
    exact ⟨_, rfl⟩
  · rw [(solve_crankSlider branched topology).1] at solved
    obtain ⟨axis, crank, slider, rod, direction, linkage⟩ := crankSlider_eq_ok legs solved
    refine ⟨axis, linkage.planar.axis?_eq (by simp) linkage.crankTurns, fun assignment => ?_⟩
    simp only [slide?, topology, linkage.planar.legs, slideOf, linkage.sliderSlides]
    exact ⟨_, rfl⟩

theorem IsPivotedSlider.closes_of_slide {first : List (Joint κ)} {pivot slider : Joint κ}
    {other : Axis} {slide : Slide}
    (linkage : problem.IsPivotedSlider geometry other first pivot slider direction)
    (settled : problem.Solved geometry) (plane : problem.axis? = some axis)
    (measured : problem.Measured geometry axis.inPlane assignment)
    (slides : slideOf axis slider
      (radicand problem assignment axis first pivot slider) = some slide)
    (unit : ‖slide.direction‖ = 1) (nonneg : 0 ≤ slide.radicand) :
    geometry.Closes assignment 2 := by
  have axes := (linkage.planar.axis?_eq (by simp) linkage.pivotTurns).symm.trans plane
  cases axes
  rw [slideOf, linkage.sliderSlides] at slides
  cases slides
  exact linkage.closes settled measured unit nonneg

/-- A loop with a slider whose travel has a root is closed by its solution. And when it is a rod
with a length that slides, then there is no other way to close it than those of the two
postures. -/
theorem slider_closes (settled : problem.Solved geometry) (plane : problem.axis? = some axis)
    (measured : problem.Measured geometry axis.inPlane assignment) {slide : Slide}
    (slides : problem.slide? assignment axis = some slide) (unit : ‖slide.direction‖ = 1)
    (nonneg : 0 ≤ slide.radicand) :
    geometry.Closes assignment 2 ∧ ∀ posture, problem.request.topology = .crankSlider posture →
      0 < ‖problem.request.frameB.position.shadowIn assignment axis‖ →
        problem.Exhausted geometry assignment (TakesTravelAndAngle assignment) := by
  obtain ⟨a, b, branched, legs⟩ := exists_branches settled.solved
  have solved := settled.solved
  cases topology : problem.request.topology with
  | fourBarTrans =>
      rw [(solve_pivotedSlider branched).1 topology] at solved
      obtain ⟨other, first, pivot, slider, direction, linkage⟩ := fourBarTrans_eq_ok legs solved
      simp only [slide?, topology, linkage.planar.legs] at slides
      exact ⟨linkage.closes_of_slide settled plane measured slides unit nonneg, nofun⟩
  | threeBarTrans =>
      rw [(solve_pivotedSlider branched).2 topology] at solved
      obtain ⟨other, first, pivot, slider, direction, linkage⟩ := threeBarTrans_eq_ok legs solved
      simp only [slide?, topology, linkage.planar.legs] at slides
      exact ⟨linkage.closes_of_slide settled plane measured slides unit nonneg, nofun⟩
  | crankSlider posture =>
      obtain ⟨same, others⟩ := solve_crankSlider branched topology
      rw [same] at solved
      obtain ⟨other, crank, slider, rod, direction, linkage⟩ := crankSlider_eq_ok legs solved
      have axes := (linkage.planar.axis?_eq (by simp) linkage.crankTurns).symm.trans plane
      cases axes
      simp only [slide?, topology, linkage.planar.legs, slideOf, linkage.sliderSlides] at slides
      cases slides
      refine ⟨linkage.closes settled measured unit nonneg, fun _ _ long => ?_⟩
      refine exhausted_of_solutions (fun other result =>
        problem.IsCrankSlider result other axis crank slider rod direction) ?_ ?_ ?_ ?_
      · intro other
        obtain ⟨result, accepted⟩ := exists_crankSlider solved other
        obtain ⟨_, _, _, _, _, turned⟩ := crankSlider_eq_ok legs accepted
        exact ⟨result, (others other).trans accepted, linkage.transfer turned⟩
      · intro other result turned
        rw [turned.planar.dependent, linkage.planar.dependent]
      · rw [linkage.planar.dependent, List.length_map, List.length_cons, List.length_singleton]
      · exact fun x y closed => linkage.complete settled measured unit nonneg long closed
  | _ => simp [slide?, topology] at slides

namespace SlidingCrank

open Sample

noncomputable def crank : Joint RealNumber := ⟨"crank", .revolute .z, coordinate 1, none, along 0⟩

noncomputable def slider : Joint RealNumber :=
  ⟨"slider", .prismatic ahead, coordinate 2, none, along 0⟩

noncomputable def rod : Joint RealNumber := ⟨"rod", .revolute .z, coordinate 3, some ⟨1⟩, along 0⟩

/-- A crank and a rod of length one, above each other. -/
noncomputable def linkage : Problem RealNumber where
  chain := ⟨[crank, slider, rod]⟩
  request := ⟨"rod", .crankSlider .positive, ⟨"a", some ⟨0⟩, along 1⟩, ⟨"b", some ⟨2⟩, along 1⟩,
    [⟨0⟩], [⟨1⟩, ⟨2⟩]⟩

theorem built : linkage.chain.Built := by
  have first : (Chain.empty : Chain RealNumber).add crank = .ok (⟨0⟩, ⟨[crank]⟩) := rfl
  have second : (⟨[crank]⟩ : Chain RealNumber).add slider = .ok (⟨1⟩, ⟨[crank, slider]⟩) := by
    change (Chain.normalize "slider" (.prismatic ahead)).bind _ = _
    rw [normalize_ahead]
    rfl
  have third : (⟨[crank, slider]⟩ : Chain RealNumber).add rod =
      .ok (⟨2⟩, ⟨[crank, slider, rod]⟩) := rfl
  exact ((Chain.Built.empty.add first).add second).add third

theorem directionInPlane_slider :
    linkage.directionInPlane ⟨1⟩ .z = .ok ⟨.number 1, .number 0⟩ := by
  change (if Scalar.isLess Scalar.alignmentTolerance (Scalar.magnitude (ahead.component .z)) = true
    then _ else _) = _
  rw [ahead_in_plane]
  rfl

theorem solvable : ∃ constraint solution, linkage.solve =
    .ok ⟨[coordinate 1], [coordinate 2, coordinate 3], constraint, solution⟩ := by
  obtain ⟨next, solved, constraint, solution, result⟩ : ∃ next,
      linkage.solve = (linkage.directionInPlane ⟨1⟩ .z).bind next ∧
        ∃ constraint solution, next ⟨.number 1, .number 0⟩ =
          .ok ⟨[coordinate 1], [coordinate 2, coordinate 3], constraint, solution⟩ :=
    ⟨_, rfl, _, _, rfl⟩
  rw [solved, directionInPlane_slider]
  exact ⟨constraint, solution, result⟩

theorem straight : linkage.offsets = [0, 0, 0, 1, 1].map along := rfl

theorem shadow_ahead : Axis.z.shadow ahead.vector = 1 := Complex.ext rfl rfl

theorem target : IsCrankSlider.target linkage atRest .z crank slider rod = 1 := by
  have placed : (Placement.behind atRest [crank]).Planar .z _ _ :=
    Placement.Planar.start.revolute (show crank.motion = .revolute .z from rfl)
  rw [IsCrankSlider.target, shadow_locate placed]
  simp [linkage, crank, slider, rod, shadowIn_along, Coordinate.valueIn, atRest]

theorem slide : linkage.slide? atRest .z = some ⟨1, 1⟩ := by
  have found : linkage.slide? atRest .z = some ⟨Axis.z.shadow ahead.vector,
      IsCrankSlider.radicand linkage atRest .z crank slider rod ahead⟩ := rfl
  rw [found, IsCrankSlider.radicand, target, shadow_ahead]
  simp [linkage, shadowIn_along]

end SlidingCrank

theorem slidingCrank_closes : ∃ geometry, SlidingCrank.linkage.solve = .ok geometry ∧
    geometry.Closes Sample.atRest 2 ∧ SlidingCrank.linkage.Exhausted geometry
      Sample.atRest (TakesTravelAndAngle Sample.atRest) := by
  obtain ⟨constraint, solution, solved⟩ := SlidingCrank.solvable
  have settled := Sample.settled [1] [2, 3] SlidingCrank.straight SlidingCrank.built solved rfl rfl
    (by decide) (by decide)
  obtain ⟨closes, exhausted⟩ := slider_closes
    settled rfl
    (Sample.measured SlidingCrank.straight) SlidingCrank.slide norm_one zero_le_one
  refine ⟨_, solved, closes, exhausted .positive rfl ?_⟩
  simp [SlidingCrank.linkage, Sample.shadowIn_along]

end Problem

end Loop

end Mechanism
