import Mechanism.Proofs.Loop.Closure

/-!
Loops that close where two circles cross: four-bar linkages and steering linkages. Their closed
form closes them in both postures, and there is no other way to close them.
-/

namespace Mechanism.Loop

variable {κ : Type} [Scalar κ]

section

variable [Exact κ] {assignment : Assignment}

theorem FourBar.takes_follow (bars : FourBar κ) {crankPivot crank coupler rockerPivot rocker : ℂ}
    {crankAngle : Expr κ} {angle : ℝ} (pivot : bars.crankPivot.Takes assignment crankPivot)
    (first : bars.crank.Takes assignment crank) (second : bars.coupler.Takes assignment coupler)
    (support : bars.rockerPivot.Takes assignment rockerPivot)
    (third : bars.rocker.Takes assignment rocker) (turned : crankAngle.Takes assignment angle)
    {pin tip : ℂ} (pinned : pin = crankPivot + heading angle * crank) (sign : κ)
    (meets : RealCircle.Meets ⟨pin, ‖coupler‖⟩ ⟨rockerPivot, ‖rocker‖⟩)
    (crossed : tip = RealCircle.crossing ⟨pin, ‖coupler‖⟩ ⟨rockerPivot, ‖rocker‖⟩ (Exact.real sign)) :
    (bars.follow sign crankAngle).1.Takes assignment ((tip - pin).arg - coupler.arg - angle) ∧
      (bars.follow sign crankAngle).2.Takes assignment ((tip - rockerPivot).arg - rocker.arg) := by
  subst pinned crossed
  have pin := pivot.add (first.rotate turned)
  have near : (Circle.mk _ bars.coupler.length).Takes assignment ⟨_, ‖coupler‖⟩ :=
    ⟨pin, second.length⟩
  have far : (Circle.mk bars.rockerPivot bars.rocker.length).Takes assignment ⟨_, ‖rocker‖⟩ :=
    ⟨support, third.length⟩
  have tip := near.intersection far meets sign
  exact ⟨Expr.takes_minus (Expr.takes_minus (tip.sub pin).angle second.angle) turned,
    Expr.takes_minus (tip.sub support).angle third.angle⟩

theorem TwoLinkArm.takes_reach (arm : TwoLinkArm κ) {goal : PlanePoint κ}
    {pivot first second target : ℂ} (base : arm.pivot.Takes assignment pivot)
    (upper : arm.first.Takes assignment first) (lower : arm.second.Takes assignment second)
    (reached : goal.Takes assignment target) (sign : κ) {knee : ℂ}
    (meets : RealCircle.Meets ⟨pivot, ‖first‖⟩ ⟨target, ‖second‖⟩)
    (crossed : knee = RealCircle.crossing ⟨pivot, ‖first‖⟩ ⟨target, ‖second‖⟩ (Exact.real sign)) :
    (arm.reach sign goal).1.Takes assignment ((knee - pivot).arg - first.arg) ∧
      (arm.reach sign goal).2.Takes assignment
        ((target - knee).arg - second.arg - ((knee - pivot).arg - first.arg)) := by
  subst crossed
  have near : (Circle.mk arm.pivot arm.first.length).Takes assignment ⟨_, ‖first‖⟩ :=
    ⟨base, upper.length⟩
  have far : (Circle.mk goal arm.second.length).Takes assignment ⟨_, ‖second‖⟩ :=
    ⟨reached, lower.length⟩
  have knee := near.intersection far meets sign
  have turned := Expr.takes_minus (knee.sub base).angle upper.angle
  exact ⟨turned, Expr.takes_minus (Expr.takes_minus (reached.sub knee).angle lower.angle) turned⟩

end

namespace Problem

variable {problem : Problem κ} {geometry : Geometry κ} {a b : List JointId} {posture : Posture}

def bars (problem : Problem κ) (axis : Axis) (crank coupler rocker : Joint κ) : FourBar κ where
  crankPivot := .ofOffset axis crank.anchor
  crank := .ofOffset axis coupler.anchor
  coupler := .ofOffset axis problem.request.frameA.position
  rockerPivot := .ofOffset axis rocker.anchor
  rocker := .ofOffset axis problem.request.frameB.position

/-- A four-bar linkage with its joints, and its solution in one posture. -/
structure IsFourBar (problem : Problem κ) (geometry : Geometry κ) (posture : Posture) (axis : Axis)
    (crank coupler rocker : Joint κ) : Prop where
  planar : problem.Planar geometry axis [crank, coupler] [rocker] [crank] [coupler, rocker]
  crankTurns : crank.motion = .revolute axis
  couplerTurns : coupler.motion = .revolute axis
  rockerTurns : rocker.motion = .revolute axis
  solution : geometry.solution =
    let (couplerAngle, rockerAngle) := (problem.bars axis crank coupler rocker).follow posture.sign
      crank.coordinate.positionExpr
    [couplerAngle, rockerAngle]

theorem exists_fourBar (solved : problem.fourBar posture a b = .ok geometry) (other : Posture) :
    ∃ result, problem.fourBar other a b = .ok result := by
  simp only [fourBar, bind_eq_ok, Prod.exists] at solved ⊢
  obtain ⟨crank, coupler, first, rocker, second, axis, common, u, v, parted, p, foundP, q, foundQ, r,
    foundR, s, foundS, t, foundT, angle, foundAngle, constraint, matched, _⟩ := solved
  exact ⟨_, crank, coupler, first, rocker, second, axis, common, u, v, parted, p, foundP, q, foundQ, r,
    foundR, s, foundS, t, foundT, angle, foundAngle, constraint, matched, rfl⟩

theorem fourBar_eq_ok (legs : problem.legs = (problem.jointsOf a, problem.jointsOf b))
    (solved : problem.fourBar posture a b = .ok geometry) :
    ∃ axis crank coupler rocker, problem.IsFourBar geometry posture axis crank coupler rocker := by
  simp only [fourBar, bind_eq_ok, Prod.exists, twoJoints_eq_ok, oneJoint_eq_ok] at solved
  obtain ⟨crankId, couplerId, rfl, rockerId, rfl, axis, common, u, v, parted, _, foundCrankPivot, _,
    foundCrank, _, foundCoupler, _, foundRockerPivot, _, foundRocker, _, foundAngle, constraint,
    matched, same⟩ := solved
  have turns := commonAxis_eq_ok common
  obtain ⟨crank, knownCrank, crankTurns⟩ := turns crankId (by simp)
  obtain ⟨coupler, knownCoupler, couplerTurns⟩ := turns couplerId (by simp)
  obtain ⟨rocker, knownRocker, rockerTurns⟩ := turns rockerId (by simp)
  obtain ⟨rfl, rfl⟩ := partition_eq_ok parted
  obtain rfl := anchorInPlane_eq_ok knownCrank foundCrankPivot
  obtain rfl := anchorInPlane_eq_ok knownCoupler foundCrank
  obtain rfl := inPlane_eq_ok foundCoupler
  obtain rfl := anchorInPlane_eq_ok knownRocker foundRockerPivot
  obtain rfl := inPlane_eq_ok foundRocker
  obtain rfl := position_eq_ok knownCrank foundAngle
  cases same
  have first : problem.jointsOf [crankId, couplerId] = [crank, coupler] := by
    simp [jointsOf, knownCrank, knownCoupler]
  have second : problem.jointsOf [rockerId] = [rocker] := by simp [jointsOf, knownRocker]
  refine ⟨axis, crank, coupler, rocker, ?_, crankTurns, couplerTurns, rockerTurns, rfl⟩
  constructor
  · rw [legs, first, second]
  · simp [crankTurns, couplerTurns, rockerTurns]
  · simp [jointsOf, knownCrank]
  · simp [jointsOf, knownCoupler, knownRocker]
  · simp
  · exact ⟨_, _, first, second, matched⟩

section

variable [Exact κ] {assignment : Assignment} {axis : Axis}

namespace IsFourBar

variable {crank coupler rocker : Joint κ}

/-- Where the end of the coupler can be when the crank is at the angle that it has. -/
noncomputable def couplerCircle (problem : Problem κ) (assignment : Assignment) (axis : Axis)
    (crank coupler : Joint κ) : RealCircle where
  center := crank.anchor.shadowIn assignment axis +
    heading (crank.coordinate.valueIn assignment) * coupler.anchor.shadowIn assignment axis
  radius := ‖problem.request.frameA.position.shadowIn assignment axis‖

noncomputable def rockerCircle (problem : Problem κ) (assignment : Assignment) (axis : Axis)
    (rocker : Joint κ) : RealCircle where
  center := rocker.anchor.shadowIn assignment axis
  radius := ‖problem.request.frameB.position.shadowIn assignment axis‖

theorem closedAt_iff (linkage : problem.IsFourBar geometry posture axis crank coupler rocker)
    (settled : problem.Solved geometry) (measured : problem.Measured geometry axis.inPlane assignment)
    {couplerAngle rockerAngle : ℝ} :
    geometry.ClosedAt assignment [couplerAngle, rockerAngle] ↔
      (couplerCircle problem assignment axis crank coupler).center +
          heading (crank.coordinate.valueIn assignment + couplerAngle) *
            problem.request.frameA.position.shadowIn assignment axis =
        (rockerCircle problem assignment axis rocker).center +
          heading rockerAngle * problem.request.frameB.position.shadowIn assignment axis := by
  have planar := linkage.planar
  have driver : crank.coordinate ∈ geometry.independent := by simp [planar.independent]
  have first : (Placement.behind (geometry.posed assignment [couplerAngle, rockerAngle])
      [crank, coupler]).Planar axis _ _ :=
    (Placement.Planar.start.revolute linkage.crankTurns).revolute linkage.couplerTurns
  have second : (Placement.behind (geometry.posed assignment [couplerAngle, rockerAngle])
      [rocker]).Planar axis _ _ := Placement.Planar.start.revolute linkage.rockerTurns
  rw [planar.closedAt_iff settled measured (by simp [planar.dependent]), shadow_locate first,
    shadow_locate second, settled.valueIn_driver driver,
    settled.valueIn_driven 0 (by rw [planar.dependent]; rfl) rfl,
    settled.valueIn_driven 1 (by rw [planar.dependent]; rfl) rfl,
    settled.shadowIn_posed problem.frameA_mem_offsets,
    settled.shadowIn_posed problem.frameB_mem_offsets, planar.anchor_posed settled crank (by simp),
    planar.anchor_posed settled coupler (by simp), planar.anchor_posed settled rocker (by simp),
    couplerCircle, rockerCircle]
  simp only [heading_zero, zero_add, one_mul]

theorem takes_solution (linkage : problem.IsFourBar geometry posture axis crank coupler rocker)
    (measured : problem.Measured geometry axis.inPlane assignment)
    (meets : (couplerCircle problem assignment axis crank coupler).Meets
      (rockerCircle problem assignment axis rocker)) {tip : ℂ}
    (crossed : tip = (couplerCircle problem assignment axis crank coupler).crossing
      (rockerCircle problem assignment axis rocker) (Exact.real (posture.sign : κ))) :
    List.Forall₂ (Expr.Takes assignment) geometry.solution
      [(tip - (couplerCircle problem assignment axis crank coupler).center).arg -
          (problem.request.frameA.position.shadowIn assignment axis).arg -
            crank.coordinate.valueIn assignment,
        (tip - (rockerCircle problem assignment axis rocker).center).arg -
          (problem.request.frameB.position.shadowIn assignment axis).arg] := by
  have planar := linkage.planar
  have anchor (joint : Joint κ) (member : joint ∈ [crank, coupler] ++ [rocker]) :=
    measured.takes_point (planar.anchor_mem_offsets joint member)
  obtain ⟨first, second⟩ := (problem.bars axis crank coupler rocker).takes_follow
    (anchor crank (by simp)) (anchor coupler (by simp))
    (measured.takes_point problem.frameA_mem_offsets) (anchor rocker (by simp))
    (measured.takes_point problem.frameB_mem_offsets)
    (measured.takes_driver (by simp [planar.independent])) rfl posture.sign meets crossed
  rw [linkage.solution]
  exact .cons first (.cons second .nil)

theorem closes (linkage : problem.IsFourBar geometry posture axis crank coupler rocker)
    (settled : problem.Solved geometry) (measured : problem.Measured geometry axis.inPlane assignment)
    (meets : (couplerCircle problem assignment axis crank coupler).Meets
      (rockerCircle problem assignment axis rocker)) : geometry.Closes assignment 2 := by
  have takes := linkage.takes_solution measured meets rfl
  refine linkage.planar.closes settled measured takes ?_
  rw [linkage.closedAt_iff settled measured]
  have unit := posture.real_sign_sq (κ := κ)
  have onFirst := meets.norm_crossing_sub_first unit (norm_nonneg _)
  have onSecond := meets.norm_crossing_sub_second unit (norm_nonneg _)
  rw [add_sub_cancel, heading_arg_sub_arg_mul onFirst.symm, heading_arg_sub_arg_mul onSecond.symm,
    add_sub_cancel, add_sub_cancel]

omit [Exact κ] in
theorem transfer (linkage : problem.IsFourBar geometry posture axis crank coupler rocker)
    {result : Geometry κ} {posture' : Posture} {axis' : Axis} {crank' coupler' rocker' : Joint κ}
    (other : problem.IsFourBar result posture' axis' crank' coupler' rocker') :
    problem.IsFourBar result posture' axis crank coupler rocker := by
  have legs := linkage.planar.legs.symm.trans other.planar.legs
  simp only [Prod.mk.injEq, List.cons.injEq, and_true] at legs
  obtain ⟨⟨rfl, rfl⟩, rfl⟩ := legs
  have axes := linkage.crankTurns.symm.trans other.crankTurns
  cases axes
  exact other

theorem complete (linkage : problem.IsFourBar geometry posture axis crank coupler rocker)
    (settled : problem.Solved geometry) (measured : problem.Measured geometry axis.inPlane assignment)
    (meets : (couplerCircle problem assignment axis crank coupler).Meets
      (rockerCircle problem assignment axis rocker))
    (long : 0 < (couplerCircle problem assignment axis crank coupler).radius)
    (far : 0 < (rockerCircle problem assignment axis rocker).radius) {x y : ℝ}
    (closed : geometry.ClosedAt assignment [x, y]) :
    ∃ other : Posture, ∀ result : Geometry κ,
      problem.IsFourBar result other axis crank coupler rocker →
        List.Forall₂ (Expr.TakesAngle assignment) result.solution [x, y] := by
  rw [linkage.closedAt_iff settled measured] at closed
  obtain ⟨tip, reached⟩ : ∃ tip, tip = (couplerCircle problem assignment axis crank coupler).center +
      heading (crank.coordinate.valueIn assignment + x) *
        problem.request.frameA.position.shadowIn assignment axis := ⟨_, rfl⟩
  have first := eq_sub_of_add_eq' reached.symm
  have second := eq_sub_of_add_eq' (reached.trans closed).symm
  have onFirst : ‖tip - (couplerCircle problem assignment axis crank coupler).center‖ =
      (couplerCircle problem assignment axis crank coupler).radius := by
    rw [← first, norm_mul, norm_heading, one_mul, couplerCircle]
  have onSecond : ‖tip - (rockerCircle problem assignment axis rocker).center‖ =
      (rockerCircle problem assignment axis rocker).radius := by
    rw [← second, norm_mul, norm_heading, one_mul, rockerCircle]
  obtain ⟨other, crossed⟩ := exists_posture (κ := κ)
    (fun sign => tip = (couplerCircle problem assignment axis crank coupler).crossing
      (rockerCircle problem assignment axis rocker) sign)
    (RealCircle.eq_crossing meets.apart onFirst onSecond)
  refine ⟨other, fun result turned => ?_⟩
  have measured' := measured.transfer
    (turned.planar.independent.trans linkage.planar.independent.symm)
  have crankAngle := coe_angle_eq (norm_pos_iff.mp long) first
  have rockerAngle := coe_angle_eq (norm_pos_iff.mp far) second
  refine Expr.takesAngle_of_takes (turned.takes_solution measured' meets crossed)
    (.cons ?_ (.cons rockerAngle.symm .nil))
  rw [Real.Angle.coe_sub, ← crankAngle, ← Real.Angle.coe_sub, add_sub_cancel_left]

end IsFourBar

end

variable {problem : Problem κ} {geometry : Geometry κ} {a b : List JointId} {posture : Posture}

def arm (axis : Axis) (rack tieRod knuckle : Joint κ) (direction : Direction κ)
    (problem : Problem κ) : TwoLinkArm κ where
  pivot := .ofOffset axis rack.anchor +
    (PlanePoint.ofOffset axis (.ofColumn (direction.toList.map Expr.number))).scale
      rack.coordinate.positionExpr + .ofOffset axis tieRod.anchor
  first := .ofOffset axis knuckle.anchor
  second := .ofOffset axis problem.request.frameB.position

/-- A steering linkage with its joints, and its solution in one posture. -/
structure IsSteering (problem : Problem κ) (geometry : Geometry κ) (posture : Posture)
    (axis : Axis) (rack tieRod knuckle : Joint κ) (direction : Direction κ) : Prop where
  planar : problem.Planar geometry axis [] [rack, tieRod, knuckle] [rack] [tieRod, knuckle]
  rackSlides : rack.motion = .prismatic direction
  tieRodTurns : tieRod.motion = .revolute axis
  knuckleTurns : knuckle.motion = .revolute axis
  solution : geometry.solution =
    let (tieRodAngle, knuckleAngle) := (arm axis rack tieRod knuckle direction problem).reach
      posture.sign (.ofOffset axis problem.request.frameA.position)
    [tieRodAngle, knuckleAngle]

theorem exists_steering (solved : problem.steering posture a b = .ok geometry) (other : Posture) :
    ∃ result, problem.steering other a b = .ok result := by
  simp only [steering, bind_eq_ok, Prod.exists] at solved ⊢
  obtain ⟨_, none, rack, tieRod, knuckle, three, axis, common, p, foundP, u, v, parted, q, foundQ, r,
    foundR, s, foundS, t, foundT, w, foundW, z, foundZ, constraint, matched, _⟩ := solved
  exact ⟨_, _, none, rack, tieRod, knuckle, three, axis, common, p, foundP, u, v, parted, q, foundQ, r,
    foundR, s, foundS, t, foundT, w, foundW, z, foundZ, constraint, matched, rfl⟩

theorem steering_eq_ok (legs : problem.legs = (problem.jointsOf a, problem.jointsOf b))
    (solved : problem.steering posture a b = .ok geometry) :
    ∃ axis rack tieRod knuckle direction,
      problem.IsSteering geometry posture axis rack tieRod knuckle direction := by
  simp only [steering, bind_eq_ok, Prod.exists, noJoint_eq_ok, threeJoints_eq_ok] at solved
  obtain ⟨_, rfl, rackId, tieRodId, knuckleId, rfl, axis, common, _, foundDirection, u, v, parted, _,
    foundTravel, _, foundRack, _, foundTieRod, _, foundKingpin, _, foundKnuckle, _, foundTip,
    constraint, matched, same⟩ := solved
  have turns := commonAxis_eq_ok common
  obtain ⟨tieRod, knownTieRod, tieRodTurns⟩ := turns tieRodId (by simp)
  obtain ⟨knuckle, knownKnuckle, knuckleTurns⟩ := turns knuckleId (by simp)
  obtain ⟨rack, direction, knownRack, rackSlides, rfl⟩ := directionInPlane_eq_ok foundDirection
  obtain ⟨rfl, rfl⟩ := partition_eq_ok parted
  obtain rfl := position_eq_ok knownRack foundTravel
  obtain rfl := anchorInPlane_eq_ok knownRack foundRack
  obtain rfl := anchorInPlane_eq_ok knownTieRod foundTieRod
  obtain rfl := inPlane_eq_ok foundKingpin
  obtain rfl := anchorInPlane_eq_ok knownKnuckle foundKnuckle
  obtain rfl := inPlane_eq_ok foundTip
  cases same
  have second : problem.jointsOf [rackId, tieRodId, knuckleId] = [rack, tieRod, knuckle] := by
    simp [jointsOf, knownRack, knownTieRod, knownKnuckle]
  refine ⟨axis, rack, tieRod, knuckle, direction, ?_, rackSlides, tieRodTurns, knuckleTurns, rfl⟩
  constructor
  · rw [legs, second]
    rfl
  · simp [rackSlides, tieRodTurns, knuckleTurns]
  · simp [jointsOf, knownRack]
  · simp [jointsOf, knownTieRod, knownKnuckle]
  · simp
  · exact ⟨_, _, rfl, second, matched⟩

section

variable [Exact κ] {assignment : Assignment} {axis : Axis}

namespace IsSteering

variable {rack tieRod knuckle : Joint κ} {direction : Direction κ}

/-- Where the end of the tie rod can be when the rack is where it is. -/
noncomputable def tieRodCircle (assignment : Assignment) (axis : Axis)
    (rack tieRod knuckle : Joint κ) (direction : Direction κ) : RealCircle where
  center := rack.anchor.shadowIn assignment axis +
    axis.shadow direction.vector * rack.coordinate.valueIn assignment +
      tieRod.anchor.shadowIn assignment axis
  radius := ‖knuckle.anchor.shadowIn assignment axis‖

/-- Where the near end of the knuckle can be when its far end is at the kingpin. -/
noncomputable def knuckleCircle (problem : Problem κ) (assignment : Assignment) (axis : Axis) :
    RealCircle where
  center := problem.request.frameA.position.shadowIn assignment axis
  radius := ‖problem.request.frameB.position.shadowIn assignment axis‖

theorem closedAt_iff
    (linkage : problem.IsSteering geometry posture axis rack tieRod knuckle direction)
    (settled : problem.Solved geometry) (measured : problem.Measured geometry axis.inPlane assignment)
    {tieRodAngle knuckleAngle : ℝ} :
    geometry.ClosedAt assignment [tieRodAngle, knuckleAngle] ↔
      (knuckleCircle problem assignment axis).center =
        (tieRodCircle assignment axis rack tieRod knuckle direction).center +
          heading tieRodAngle * knuckle.anchor.shadowIn assignment axis +
            heading (tieRodAngle + knuckleAngle) *
              problem.request.frameB.position.shadowIn assignment axis := by
  have planar := linkage.planar
  have driver : rack.coordinate ∈ geometry.independent := by simp [planar.independent]
  have first : (Placement.behind (geometry.posed assignment [tieRodAngle, knuckleAngle])
      ([] : List (Joint κ))).Planar axis _ _ := Placement.Planar.start
  have second : (Placement.behind (geometry.posed assignment [tieRodAngle, knuckleAngle])
      [rack, tieRod, knuckle]).Planar axis _ _ :=
    ((Placement.Planar.start.prismatic linkage.rackSlides).revolute linkage.tieRodTurns).revolute
      linkage.knuckleTurns
  rw [planar.closedAt_iff settled measured (by simp [planar.dependent]), shadow_locate first,
    shadow_locate second, settled.valueIn_driver driver,
    settled.valueIn_driven 0 (by rw [planar.dependent]; rfl) rfl,
    settled.valueIn_driven 1 (by rw [planar.dependent]; rfl) rfl,
    settled.shadowIn_posed problem.frameA_mem_offsets,
    settled.shadowIn_posed problem.frameB_mem_offsets, planar.anchor_posed settled rack (by simp),
    planar.anchor_posed settled tieRod (by simp), planar.anchor_posed settled knuckle (by simp),
    tieRodCircle, knuckleCircle]
  simp only [heading_zero, zero_add, one_mul, mul_comm]

theorem takes_solution
    (linkage : problem.IsSteering geometry posture axis rack tieRod knuckle direction)
    (measured : problem.Measured geometry axis.inPlane assignment)
    (meets : (tieRodCircle assignment axis rack tieRod knuckle direction).Meets
      (knuckleCircle problem assignment axis)) {knee : ℂ}
    (crossed : knee = (tieRodCircle assignment axis rack tieRod knuckle direction).crossing
      (knuckleCircle problem assignment axis) (Exact.real (posture.sign : κ))) :
    let tieRodAngle := (knee - (tieRodCircle assignment axis rack tieRod knuckle direction).center).arg -
      (knuckle.anchor.shadowIn assignment axis).arg
    List.Forall₂ (Expr.Takes assignment) geometry.solution
      [tieRodAngle, ((knuckleCircle problem assignment axis).center - knee).arg -
        (problem.request.frameB.position.shadowIn assignment axis).arg - tieRodAngle] := by
  have planar := linkage.planar
  have anchor (joint : Joint κ) (member : joint ∈ [] ++ [rack, tieRod, knuckle]) :=
    measured.takes_point (planar.anchor_mem_offsets joint member)
  have driver : rack.coordinate ∈ geometry.independent := by simp [planar.independent]
  have slid := (PlanePoint.takes_direction axis direction).scale (measured.takes_driver driver)
  obtain ⟨first, second⟩ := (arm axis rack tieRod knuckle direction problem).takes_reach
    (((anchor rack (by simp)).add slid).add (anchor tieRod (by simp))) (anchor knuckle (by simp))
    (measured.takes_point problem.frameB_mem_offsets)
    (measured.takes_point problem.frameA_mem_offsets) posture.sign meets crossed
  rw [linkage.solution]
  exact .cons first (.cons second .nil)

theorem closes (linkage : problem.IsSteering geometry posture axis rack tieRod knuckle direction)
    (settled : problem.Solved geometry) (measured : problem.Measured geometry axis.inPlane assignment)
    (meets : (tieRodCircle assignment axis rack tieRod knuckle direction).Meets
      (knuckleCircle problem assignment axis)) : geometry.Closes assignment 2 := by
  have takes := linkage.takes_solution measured meets rfl
  refine linkage.planar.closes settled measured takes ?_
  rw [linkage.closedAt_iff settled measured]
  have unit := posture.real_sign_sq (κ := κ)
  have onFirst := meets.norm_crossing_sub_first unit (norm_nonneg _)
  have onSecond := meets.norm_crossing_sub_second unit (norm_nonneg _)
  rw [norm_sub_rev] at onSecond
  rw [add_sub_cancel, heading_arg_sub_arg_mul onFirst.symm, heading_arg_sub_arg_mul onSecond.symm,
    add_sub_cancel, add_sub_cancel]

omit [Exact κ] in
theorem transfer (linkage : problem.IsSteering geometry posture axis rack tieRod knuckle direction)
    {result : Geometry κ} {posture' : Posture} {axis' : Axis} {rack' tieRod' knuckle' : Joint κ}
    {direction' : Direction κ}
    (other : problem.IsSteering result posture' axis' rack' tieRod' knuckle' direction') :
    problem.IsSteering result posture' axis rack tieRod knuckle direction := by
  have legs := linkage.planar.legs.symm.trans other.planar.legs
  simp only [Prod.mk.injEq, List.cons.injEq, and_true, true_and] at legs
  obtain ⟨rfl, rfl, rfl⟩ := legs
  have axes := linkage.tieRodTurns.symm.trans other.tieRodTurns
  have directions := linkage.rackSlides.symm.trans other.rackSlides
  cases axes
  cases directions
  exact other

theorem complete (linkage : problem.IsSteering geometry posture axis rack tieRod knuckle direction)
    (settled : problem.Solved geometry) (measured : problem.Measured geometry axis.inPlane assignment)
    (meets : (tieRodCircle assignment axis rack tieRod knuckle direction).Meets
      (knuckleCircle problem assignment axis))
    (long : 0 < (tieRodCircle assignment axis rack tieRod knuckle direction).radius)
    (far : 0 < (knuckleCircle problem assignment axis).radius) {x y : ℝ}
    (closed : geometry.ClosedAt assignment [x, y]) :
    ∃ other : Posture, ∀ result : Geometry κ,
      problem.IsSteering result other axis rack tieRod knuckle direction →
        List.Forall₂ (Expr.TakesAngle assignment) result.solution [x, y] := by
  rw [linkage.closedAt_iff settled measured] at closed
  obtain ⟨knee, reached⟩ : ∃ knee, knee =
      (tieRodCircle assignment axis rack tieRod knuckle direction).center +
        heading x * knuckle.anchor.shadowIn assignment axis := ⟨_, rfl⟩
  rw [← reached] at closed
  have first := eq_sub_of_add_eq' reached.symm
  have second := eq_sub_of_add_eq' closed.symm
  have onFirst : ‖knee - (tieRodCircle assignment axis rack tieRod knuckle direction).center‖ =
      (tieRodCircle assignment axis rack tieRod knuckle direction).radius := by
    rw [← first, norm_mul, norm_heading, one_mul, tieRodCircle]
  have onSecond : ‖knee - (knuckleCircle problem assignment axis).center‖ =
      (knuckleCircle problem assignment axis).radius := by
    rw [norm_sub_rev, ← second, norm_mul, norm_heading, one_mul, knuckleCircle]
  obtain ⟨other, crossed⟩ := exists_posture (κ := κ)
    (fun sign => knee = (tieRodCircle assignment axis rack tieRod knuckle direction).crossing
      (knuckleCircle problem assignment axis) sign)
    (RealCircle.eq_crossing meets.apart onFirst onSecond)
  refine ⟨other, fun result turned => ?_⟩
  have measured' := measured.transfer
    (turned.planar.independent.trans linkage.planar.independent.symm)
  have tieRodAngle := coe_angle_eq (norm_pos_iff.mp long) first
  have knuckleAngle := coe_angle_eq (norm_pos_iff.mp far) second
  refine Expr.takesAngle_of_takes (turned.takes_solution measured' meets crossed)
    (.cons tieRodAngle.symm (.cons ?_ .nil))
  rw [Real.Angle.coe_sub, ← knuckleAngle, ← tieRodAngle, ← Real.Angle.coe_sub, add_sub_cancel_left]

end IsSteering

end

theorem solve_fourBar (branched : problem.chain.branches problem.request.frameA.body
      problem.request.frameB.body = .ok (a, b))
    (topology : problem.request.topology = .fourBar posture) :
    problem.solve = problem.fourBar posture a b ∧
      ∀ other, (problem.withPosture other).solve = problem.fourBar other a b := by
  obtain ⟨chain, ⟨name, kind, frameA, frameB, independent, dependent⟩⟩ := problem
  subst topology
  simp only at branched
  simp only [solve, withPosture, Topology.withPosture, branched]
  exact ⟨rfl, fun _ => rfl⟩

theorem solve_steering (branched : problem.chain.branches problem.request.frameA.body
      problem.request.frameB.body = .ok (a, b))
    (topology : problem.request.topology = .steering posture) :
    problem.solve = problem.steering posture a b ∧
      ∀ other, (problem.withPosture other).solve = problem.steering other a b := by
  obtain ⟨chain, ⟨name, kind, frameA, frameB, independent, dependent⟩⟩ := problem
  subst topology
  simp only at branched
  simp only [solve, withPosture, Topology.withPosture, branched]
  exact ⟨rfl, fun _ => rfl⟩

section

variable [Exact κ]

/-- The circles on which the ends of two links can be, when these are to meet. -/
noncomputable def circles? (problem : Problem κ) (assignment : Assignment) (axis : Axis) :
    Option (RealCircle × RealCircle) :=
  match problem.request.topology, problem.legs with
  | .fourBar _, ([crank, coupler], [rocker]) =>
    some (IsFourBar.couplerCircle problem assignment axis crank coupler,
      IsFourBar.rockerCircle problem assignment axis rocker)
  | .steering _, ([], [rack, tieRod, knuckle]) =>
    match rack.motion with
    | .prismatic direction =>
      some (IsSteering.tieRodCircle assignment axis rack tieRod knuckle direction,
        IsSteering.knuckleCircle problem assignment axis)
    | .revolute _ => none
  | _, _ => none

variable {assignment : Assignment} {axis : Axis} {first second : RealCircle}

/-- Every four-bar and every steering linkage that is accepted has an axis and two circles, wherever
its joints are. -/
theorem exists_circles (solved : problem.solve = .ok geometry)
    (circular : (∃ posture, problem.request.topology = .fourBar posture) ∨
      ∃ posture, problem.request.topology = .steering posture) :
    ∃ axis, problem.axis? = some axis ∧ ∀ assignment, ∃ first second,
      problem.circles? assignment axis = some (first, second) := by
  obtain ⟨a, b, branched, legs⟩ := exists_branches solved
  rcases circular with ⟨posture, topology⟩ | ⟨posture, topology⟩
  · rw [(solve_fourBar branched topology).1] at solved
    obtain ⟨axis, crank, coupler, rocker, linkage⟩ := fourBar_eq_ok legs solved
    refine ⟨axis, linkage.planar.axis?_eq (by simp) linkage.crankTurns, fun assignment => ?_⟩
    simp only [circles?, topology, linkage.planar.legs]
    exact ⟨_, _, rfl⟩
  · rw [(solve_steering branched topology).1] at solved
    obtain ⟨axis, rack, tieRod, knuckle, direction, linkage⟩ := steering_eq_ok legs solved
    refine ⟨axis, linkage.planar.axis?_eq (by simp) linkage.tieRodTurns, fun assignment => ?_⟩
    simp only [circles?, topology, linkage.planar.legs, linkage.rackSlides]
    exact ⟨_, _, rfl⟩

/-- A loop with two circles that meet is closed by its solution, whichever posture it is asked
for. And if both circles have a radius, then there is no other way to close it. -/
theorem circles_close (settled : problem.Solved geometry) (plane : problem.axis? = some axis)
    (measured : problem.Measured geometry axis.inPlane assignment)
    (circles : problem.circles? assignment axis = some (first, second))
    (meets : first.Meets second) :
    geometry.Closes assignment 2 ∧
      (0 < first.radius → 0 < second.radius →
        problem.Exhausted geometry assignment (List.Forall₂ (Expr.TakesAngle assignment))) := by
  obtain ⟨a, b, branched, legs⟩ := exists_branches settled.solved
  have solved := settled.solved
  cases topology : problem.request.topology with
  | fourBar posture =>
      obtain ⟨same, others⟩ := solve_fourBar branched topology
      rw [same] at solved
      obtain ⟨other, crank, coupler, rocker, linkage⟩ := fourBar_eq_ok legs solved
      have axes := (linkage.planar.axis?_eq (by simp) linkage.crankTurns).symm.trans plane
      cases axes
      simp only [circles?, topology, linkage.planar.legs, Option.some.injEq, Prod.mk.injEq] at circles
      obtain ⟨rfl, rfl⟩ := circles
      refine ⟨linkage.closes settled measured meets, fun long far => ?_⟩
      refine exhausted_of_solutions (fun other result =>
        problem.IsFourBar result other axis crank coupler rocker) ?_ ?_ ?_ ?_
      · intro other
        obtain ⟨result, accepted⟩ := exists_fourBar solved other
        obtain ⟨_, _, _, _, turned⟩ := fourBar_eq_ok legs accepted
        exact ⟨result, (others other).trans accepted, linkage.transfer turned⟩
      · intro other result turned
        rw [turned.planar.dependent, linkage.planar.dependent]
      · rw [linkage.planar.dependent, List.length_map, List.length_cons, List.length_singleton]
      · exact fun x y closed => linkage.complete settled measured meets long far closed
  | steering posture =>
      obtain ⟨same, others⟩ := solve_steering branched topology
      rw [same] at solved
      obtain ⟨other, rack, tieRod, knuckle, direction, linkage⟩ := steering_eq_ok legs solved
      have axes := (linkage.planar.axis?_eq (by simp) linkage.tieRodTurns).symm.trans plane
      cases axes
      simp only [circles?, topology, linkage.planar.legs, linkage.rackSlides, Option.some.injEq,
        Prod.mk.injEq] at circles
      obtain ⟨rfl, rfl⟩ := circles
      refine ⟨linkage.closes settled measured meets, fun long far => ?_⟩
      refine exhausted_of_solutions (fun other result =>
        problem.IsSteering result other axis rack tieRod knuckle direction) ?_ ?_ ?_ ?_
      · intro other
        obtain ⟨result, accepted⟩ := exists_steering solved other
        obtain ⟨_, _, _, _, _, turned⟩ := steering_eq_ok legs accepted
        exact ⟨result, (others other).trans accepted, linkage.transfer turned⟩
      · intro other result turned
        rw [turned.planar.dependent, linkage.planar.dependent]
      · rw [linkage.planar.dependent, List.length_map, List.length_cons, List.length_singleton]
      · exact fun x y closed => linkage.complete settled measured meets long far closed
  | _ => simp [circles?, topology] at circles

end

namespace Trapezoid

open Sample

noncomputable def crank : Joint RealNumber := ⟨"crank", .revolute .z, coordinate 1, none, along 0⟩

noncomputable def coupler : Joint RealNumber :=
  ⟨"coupler", .revolute .z, coordinate 2, some ⟨0⟩, along 1⟩

noncomputable def rocker : Joint RealNumber := ⟨"rocker", .revolute .z, coordinate 3, none,
  along (1 + 1)⟩

/-- Pivots at a distance of two, and three links of length one. -/
noncomputable def linkage : Problem RealNumber where
  chain := ⟨[crank, coupler, rocker]⟩
  request := ⟨"trapezoid", .fourBar .positive, ⟨"a", some ⟨1⟩, along 1⟩, ⟨"b", some ⟨2⟩, along 1⟩,
    [⟨0⟩], [⟨1⟩, ⟨2⟩]⟩

theorem built : linkage.chain.Built := by
  have first : (Chain.empty : Chain RealNumber).add crank = .ok (⟨0⟩, ⟨[crank]⟩) := rfl
  have second : (⟨[crank]⟩ : Chain RealNumber).add coupler = .ok (⟨1⟩, ⟨[crank, coupler]⟩) := rfl
  have third : (⟨[crank, coupler]⟩ : Chain RealNumber).add rocker =
      .ok (⟨2⟩, ⟨[crank, coupler, rocker]⟩) := rfl
  exact ((Chain.Built.empty.add first).add second).add third

theorem solvable : ∃ constraint solution, linkage.solve =
    .ok ⟨[coordinate 1], [coordinate 2, coordinate 3], constraint, solution⟩ := ⟨_, _, rfl⟩

theorem straight : linkage.offsets = [0, 1, 1 + 1, 1, 1].map along := rfl

theorem circles : linkage.circles? atRest .z = some (⟨1, 1⟩, ⟨2, 1⟩) := by
  have near : IsFourBar.couplerCircle linkage atRest .z crank coupler = ⟨1, 1⟩ := by
    simp [IsFourBar.couplerCircle, linkage, crank, coupler, shadowIn_along, Coordinate.valueIn, atRest]
  have far : IsFourBar.rockerCircle linkage atRest .z rocker = ⟨2, 1⟩ := by
    simp [IsFourBar.rockerCircle, linkage, rocker, shadowIn_along, one_add_one_eq_two]
  rw [← near, ← far]
  rfl

theorem meets : RealCircle.Meets ⟨1, 1⟩ ⟨2, 1⟩ := by
  constructor <;> norm_num [RealCircle.radicand, RealCircle.along, RealCircle.distance]

end Trapezoid

theorem trapezoid_closes : ∃ geometry, Trapezoid.linkage.solve = .ok geometry ∧
    geometry.Closes Sample.atRest 2 ∧ Trapezoid.linkage.Exhausted geometry
      Sample.atRest (List.Forall₂ (Expr.TakesAngle Sample.atRest)) := by
  obtain ⟨constraint, solution, solved⟩ := Trapezoid.solvable
  have settled := Sample.settled [1] [2, 3] Trapezoid.straight Trapezoid.built solved rfl rfl (by decide)
    (by decide)
  obtain ⟨closes, exhausted⟩ := circles_close settled rfl
    (Sample.measured Trapezoid.straight) Trapezoid.circles Trapezoid.meets
  exact ⟨_, solved, closes, exhausted one_pos one_pos⟩

end Problem

end Mechanism.Loop
