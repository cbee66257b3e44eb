import Mechanism.Proofs.Loop.Closure

/-!
Loops that hold a point of a platform by a leg, which turns about two axes and slides. The leg is
turned about its first axis until the point lies in the plane of its second one, where it is a
matter of a triangle.
-/

namespace Mechanism.Loop

variable {κ : Type} [Scalar κ]

section

variable [Exact κ] {assignment : Assignment}

theorem vectorIn_of_not_isOffAxis {point : Tensor κ} (straight : isOffAxis point = false) :
    point.vectorIn assignment = ![(point.component 0).valueIn assignment, 0, 0] := by
  have vanishes (index : Nat) : (point.component (index + 1)).Takes assignment 0 := by
    rw [Tensor.component]
    cases found : point.entries[index + 1]? with
    | none => exact Expr.takes_zero
    | some entry =>
        have member : entry ∈ point.entries.drop 1 := by
          rw [← Nat.add_comm 1, ← List.getElem?_drop] at found
          exact List.mem_of_getElem? found
        exact Expr.isZero_takes (by simpa using List.any_eq_false.mp straight entry member)
  funext index
  fin_cases index
  · rfl
  · exact (vanishes 0).valueIn_eq
  · exact (vanishes 1).valueIn_eq

/-- How a leg that is turned and tilted reaches a point, seen from the axis that it turns about:
the turn brings the point to the plane of the tilt. -/
structure Reaches (offset length yaw tilt : ℝ) (point : Fin 3 → ℝ) : Prop where
  turned : heading yaw * ((offset + length * Real.cos tilt : ℝ) : ℂ) = ⟨point 0, -point 2⟩
  tilted : length * Real.sin tilt = point 1

theorem Reaches.eq {offset length yaw tilt : ℝ} {point : Fin 3 → ℝ}
    (reaches : Reaches offset length yaw tilt point) :
    (Axis.y.turn yaw).mulVec (![offset, 0, 0] + (Axis.z.turn tilt).mulVec ![length, 0, 0]) =
      point := by
  have turned := reaches.turned
  rw [heading_eq, Complex.ext_iff] at turned
  simp only [Complex.re_mul_ofReal, Complex.im_mul_ofReal] at turned
  funext index
  fin_cases index
  · simp [Axis.turn, Matrix.mulVec, dotProduct, Fin.sum_univ_three, ← turned.1]
  · simp [Axis.turn, Matrix.mulVec, dotProduct, Fin.sum_univ_three, ← reaches.tilted]
  · have depth := neg_eq_iff_eq_neg.mpr turned.2
    simp [Axis.turn, Matrix.mulVec, dotProduct, Fin.sum_univ_three]
    linarith

/-- The distance of a point from the axis that the leg turns about. -/
noncomputable def spread (point : Fin 3 → ℝ) : ℝ := ‖Axis.y.shadow point‖

theorem spread_eq (point : Fin 3 → ℝ) : spread point = Real.sqrt (point 0 ^ 2 + point 2 ^ 2) := by
  rw [add_comm]
  exact Complex.norm_eq_sqrt_sq_add_sq _

theorem heading_arg_mul_spread (point : Fin 3 → ℝ) :
    heading (⟨point 0, -point 2⟩ : ℂ).arg * (spread point : ℂ) = ⟨point 0, -point 2⟩ := by
  have length : spread point = ‖(⟨point 0, -point 2⟩ : ℂ)‖ := by
    rw [spread_eq, Complex.norm_eq_sqrt_sq_add_sq, neg_sq]
  rw [length, mul_comm, norm_mul_heading_arg]

theorem reaches_apart (offset : ℝ) (point : Fin 3 → ℝ) :
    Reaches offset (Real.sqrt ((spread point - offset) ^ 2 + point 1 ^ 2))
      (⟨point 0, -point 2⟩ : ℂ).arg (⟨spread point - offset, point 1⟩ : ℂ).arg point := by
  have triangle := norm_mul_heading_arg (⟨spread point - offset, point 1⟩ : ℂ)
  rw [Complex.norm_eq_sqrt_sq_add_sq, heading_eq, Complex.ext_iff] at triangle
  simp only [Complex.re_ofReal_mul, Complex.im_ofReal_mul] at triangle
  constructor
  · rw [triangle.1, add_sub_cancel, heading_arg_mul_spread]
  · exact triangle.2

noncomputable def extent (point : Fin 3 → ℝ) : ℝ := Real.sqrt (∑ index, point index ^ 2)

theorem extent_eq (point : Fin 3 → ℝ) :
    extent point = Real.sqrt (point 0 ^ 2 + point 1 ^ 2 + point 2 ^ 2) := by
  rw [extent, Fin.sum_univ_three]

theorem sq_extent (point : Fin 3 → ℝ) : extent point ^ 2 = spread point ^ 2 + point 1 ^ 2 := by
  rw [extent_eq, spread_eq, Real.sq_sqrt (by positivity), Real.sq_sqrt (by positivity)]
  ring

theorem extent_pos {point : Fin 3 → ℝ} (far : point ≠ 0) : 0 < extent point := by
  obtain ⟨index, nonzero⟩ := Function.ne_iff.mp far
  rw [extent_eq]
  apply Real.sqrt_pos.mpr
  have positive := sq_pos_of_ne_zero nonzero
  fin_cases index <;> simp only [Fin.zero_eta, Fin.mk_one, Fin.reduceFinMk] at positive <;> positivity

theorem abs_div_extent_le (point : Fin 3 → ℝ) : |point 1 / extent point| ≤ 1 := by
  rw [abs_div, abs_of_nonneg (show 0 ≤ extent point from Real.sqrt_nonneg _)]
  refine div_le_one_of_le₀ (abs_le_of_sq_le_sq ?_ (Real.sqrt_nonneg _)) (Real.sqrt_nonneg _)
  rw [sq_extent]
  exact le_add_of_nonneg_left (sq_nonneg _)

/-- Where the leg tilts at the point that it turns about, it is the long side of a right
triangle. -/
theorem reaches_far {point : Fin 3 → ℝ} (far : point ≠ 0) :
    Reaches 0 (extent point) (⟨point 0, -point 2⟩ : ℂ).arg
      (Real.arcsin (point 1 / extent point)) point := by
  have positive := extent_pos far
  have height : extent point * (point 1 / extent point) = point 1 :=
    mul_div_cancel₀ _ positive.ne'
  have inside := abs_div_extent_le point
  have sine := Real.sin_arcsin (neg_le_of_abs_le inside) (le_of_abs_le inside)
  have width : extent point * Real.cos (Real.arcsin (point 1 / extent point)) = spread point := by
    apply (sq_eq_sq₀ (mul_nonneg positive.le (Real.cos_arcsin_nonneg _)) (Real.sqrt_nonneg _)).mp
    calc (extent point * Real.cos (Real.arcsin (point 1 / extent point))) ^ 2
        = extent point ^ 2 - (extent point * (point 1 / extent point)) ^ 2 := by
          rw [mul_pow, Real.cos_sq', sine]
          ring
      _ = spread point ^ 2 := by rw [height, sq_extent, add_sub_cancel_right]
  constructor
  · rw [zero_add, width, heading_arg_mul_spread]
  · rw [sine, height]

theorem takes_norm {target : Tensor κ} {far x y z : Expr κ} {point : Fin 3 → ℝ}
    (measured : target.norm = .ok far) (entries : target.entries = [x, y, z])
    (first : x.Takes assignment (point 0)) (second : y.Takes assignment (point 1))
    (third : z.Takes assignment (point 2)) : far.Takes assignment (extent point) := by
  rw [Tensor.norm, Tensor.dot, entries] at measured
  split at measured
  · cases measured
    rw [extent_eq]
    refine PlanePoint.takes_squareRoot (Expr.takes_sum ?_) (by positivity)
    rw [sq, sq, sq, add_assoc]
    exact Expr.sumsTo_cons.mpr ⟨_, _, Expr.takes_times first first, Expr.sumsTo_cons.mpr
      ⟨_, _, Expr.takes_times second second,
        Expr.sumsTo_singleton.mpr (Expr.takes_times third third), rfl⟩, rfl⟩
  · cases measured

omit [Exact κ] in
theorem Leg.three_le_length {leg : Leg κ} {target : Tensor κ} {solution : List (Expr κ)}
    (solved : leg.reach target = .ok solution) : 3 ≤ target.entries.length := by
  simp only [reach, bind_eq_ok] at solved
  obtain ⟨_, _, _, _, _, found, _⟩ := solved
  exact (List.getElem?_eq_some_iff.mp (Tensor.entryAt_eq_ok.mp found).2).1

/-- The closed form of a leg gives how it reaches the target, if it is not plain or the target is
not where it begins. -/
theorem Leg.takes_reach (leg : Leg κ) {target : Tensor κ} {point : Fin 3 → ℝ}
    {solution : List (Expr κ)} {extension : ℝ} (solved : leg.reach target = .ok solution)
    (length : target.entries.length ≤ 3)
    (seen : ∀ index : Fin 3, (target.component index).Takes assignment (point index))
    (extended : leg.extension.Takes assignment extension) :
    (∀ offset, leg.offset = some offset → ∀ apart, offset.Takes assignment apart →
      ∃ far yaw tilt, List.Forall₂ (Expr.Takes assignment) solution [far - extension, yaw, tilt] ∧
        Reaches apart far yaw tilt point) ∧
    (leg.offset = none → point ≠ 0 →
      ∃ far yaw tilt, List.Forall₂ (Expr.Takes assignment) solution [far - extension, yaw, tilt] ∧
        Reaches 0 far yaw tilt point) := by
  simp only [reach, bind_eq_ok] at solved
  obtain ⟨x, foundX, y, foundY, z, foundZ, solved⟩ := solved
  have takesX := seen 0
  have takesY := seen 1
  have takesZ := seen 2
  simp only [Fin.val_zero, Fin.val_one, Fin.val_two, Tensor.component_eq_of_entryAt foundX,
    Tensor.component_eq_of_entryAt foundY, Tensor.component_eq_of_entryAt foundZ]
    at takesX takesY takesZ
  have yaw := Expr.takes_angleOf (Expr.takes_negate takesZ) takesX
  constructor
  · intro offset apart distance takesOffset
    rw [apart] at solved
    cases solved
    have radial := Expr.takes_minus (PlanePoint.takes_squareRoot (Expr.takes_plus
      (Expr.takes_square takesX) (Expr.takes_square takesZ)) (by positivity)) takesOffset
    rw [← spread_eq] at radial
    have far := PlanePoint.takes_squareRoot (Expr.takes_plus (Expr.takes_square radial)
      (Expr.takes_square takesY)) (by positivity)
    exact ⟨_, _, _, .cons (Expr.takes_minus far extended) (.cons yaw
      (.cons (Expr.takes_angleOf takesY radial) .nil)), reaches_apart distance point⟩
  · intro plain nonzero
    rw [plain] at solved
    simp only [bind_eq_ok] at solved
    obtain ⟨far, measured, same⟩ := solved
    cases same
    have entries : target.entries = [x, y, z] := by
      apply List.ext_getElem?
      rintro (_ | _ | _ | index)
      · exact (Tensor.entryAt_eq_ok.mp foundX).2
      · exact (Tensor.entryAt_eq_ok.mp foundY).2
      · exact (Tensor.entryAt_eq_ok.mp foundZ).2
      · exact List.getElem?_eq_none (by omega)
    have takesFar := takes_norm measured entries takesX takesY takesZ
    have tilt : (Expr.apply .asin (y / far)).Takes assignment
        (Real.arcsin (point 1 / extent point)) :=
      Expr.takes_apply (Expr.takes_dividedBy takesY takesFar (extent_pos nonzero).ne')
        (if_pos (abs_le.mp (abs_div_extent_le point)))
    exact ⟨_, _, _, .cons (Expr.takes_minus takesFar extended) (.cons yaw (.cons tilt .nil)),
      reaches_far nonzero⟩

end

namespace Problem

variable {problem : Problem κ} {geometry : Geometry κ} {a b : List JointId}

/-- A platform on the given joints that is held by a leg, and its solution. -/
structure IsHexapod (problem : Problem κ) (geometry : Geometry κ) (offsetAllowed : Bool)
    (platform : List (Joint κ)) (yaw tilt length : Joint κ) (direction : Direction κ) : Prop where
  legs : problem.legs = (platform, [yaw, tilt, length])
  yawTurns : yaw.motion = .revolute .y
  tiltTurns : tilt.motion = .revolute .z
  lengthSlides : length.motion = .prismatic direction
  independent : geometry.independent = platform.map Joint.coordinate
  dependent : geometry.dependent = [length, yaw, tilt].map Joint.coordinate
  tiltStraight : isOffAxis tilt.anchor = false
  lengthStraight : isOffAxis length.anchor = false
  tipStraight : isOffAxis problem.request.frameB.position = false
  together : offsetAllowed = false → (tilt.anchor.component 0).isZero = true
  constraint : ∃ a b, problem.jointsOf a = platform ∧ problem.jointsOf b = [yaw, tilt, length] ∧
    problem.mismatch a b = .ok geometry.constraint
  shape : problem.request.frameA.position.shape = .vector 3
  solution : ∃ target,
    (located platform problem.request.frameA).sub yaw.anchor = .ok target ∧
      Leg.reach ⟨if offsetAllowed then some (tilt.anchor.component 0) else none,
        length.anchor.component 0 + problem.request.frameB.position.component 0⟩ target =
          .ok geometry.solution

theorem leg_eq_ok {offsetAllowed : Bool} {tiltId lengthId : JointId} {tilt length : Joint κ}
    {leg : Leg κ} (knownTilt : problem.chain.joint? tiltId = some tilt)
    (knownLength : problem.chain.joint? lengthId = some length)
    (found : problem.leg offsetAllowed tiltId lengthId = .ok leg) :
    isOffAxis tilt.anchor = false ∧ isOffAxis length.anchor = false ∧
      isOffAxis problem.request.frameB.position = false ∧
      (offsetAllowed = false → (tilt.anchor.component 0).isZero = true) ∧
      leg = ⟨if offsetAllowed then some (tilt.anchor.component 0) else none,
        length.anchor.component 0 + problem.request.frameB.position.component 0⟩ := by
  simp only [Problem.leg, bind_eq_ok, joint_eq_ok, knownTilt, knownLength, Option.some.injEq,
    exists_eq_left', check_eq_ok, ofAlgebra_eq_ok, Bool.not_eq_true, Bool.or_eq_false_iff,
    Bool.and_eq_false_iff, Bool.not_eq_false_eq_eq_true] at found
  obtain ⟨tiltStraight, offset, foundOffset, together, ⟨lengthStraight, tipStraight⟩, start,
    foundStart, tip, foundTip, same⟩ := found
  cases same
  rw [Tensor.component_eq_of_entryAt foundOffset, Tensor.component_eq_of_entryAt foundStart,
    Tensor.component_eq_of_entryAt foundTip]
  refine ⟨tiltStraight, lengthStraight, tipStraight, ?_, rfl⟩
  rintro rfl
  simpa using together

theorem hexapod_eq_ok {offsetAllowed : Bool}
    (legs : problem.legs = (problem.jointsOf a, problem.jointsOf b))
    (solved : problem.hexapod offsetAllowed a b = .ok geometry) :
    ∃ platform yaw tilt length direction,
      problem.IsHexapod geometry offsetAllowed platform yaw tilt length direction := by
  simp only [hexapod, bind_eq_ok, threeJoints_eq_ok, check_eq_ok, Prod.exists, ne_eq, not_not]
    at solved
  obtain ⟨_, yawId, tiltId, lengthId, rfl, _, foundYaw, rfl, _, foundTilt, rfl, direction,
    foundLength, rest⟩ := solved
  obtain ⟨yaw, knownYaw, yawTurns⟩ := revoluteAxis_eq_ok.mp foundYaw
  obtain ⟨tilt, knownTilt, tiltTurns⟩ := revoluteAxis_eq_ok.mp foundTilt
  obtain ⟨length, knownLength, lengthSlides⟩ := prismaticDirection_eq_ok.mp foundLength
  split at rest
  · simp only [check_eq_ok, bind_eq_ok, Prod.exists, ofChain_eq_ok, ofAlgebra_eq_ok, joint_eq_ok,
      knownYaw, Option.some.injEq, exists_eq_left'] at rest
    obtain ⟨_, leg, foundLeg, u, v, parted, platform, foundPlatform, target, subtracted, solution,
      reached, constraint, matched, same⟩ := rest
    obtain ⟨tiltStraight, lengthStraight, tipStraight, together, rfl⟩ :=
      leg_eq_ok knownTilt knownLength foundLeg
    obtain ⟨rfl, rfl⟩ := partition_eq_ok parted
    obtain ⟨shape, rfl⟩ := positionOf_eq_ok foundPlatform
    cases same
    have joints : problem.jointsOf [yawId, tiltId, lengthId] = [yaw, tilt, length] := by
      simp [jointsOf, knownYaw, knownTilt, knownLength]
    exact ⟨problem.jointsOf a, yaw, tilt, length, direction, by rw [legs, joints], yawTurns,
      tiltTurns, lengthSlides, rfl, by simp [jointsOf, knownYaw, knownTilt, knownLength],
      tiltStraight, lengthStraight, tipStraight, together, ⟨a, _, rfl, joints, matched⟩, shape,
      target, subtracted, reached⟩
  · obtain ⟨_, refused, _⟩ := bind_eq_ok.mp rest
    exact absurd refused unsupported_ne_ok

section

variable [Exact κ] {assignment : Assignment} {direction : Direction κ} {yaw tilt length : Joint κ}

theorem locate_leg (yawTurns : yaw.motion = .revolute .y) (tiltTurns : tilt.motion = .revolute .z)
    (lengthSlides : length.motion = .prismatic direction) (frame : Frame κ) :
    locate assignment [yaw, tilt, length] frame =
      yaw.anchor.vectorIn assignment +
        (Axis.y.turn (yaw.coordinate.valueIn assignment)).mulVec
          (tilt.anchor.vectorIn assignment +
            (Axis.z.turn (tilt.coordinate.valueIn assignment)).mulVec
              (length.anchor.vectorIn assignment +
                length.coordinate.valueIn assignment • direction.vector +
                  frame.position.vectorIn assignment)) := by
  simp only [locate, Placement.behind, List.foldl_cons, List.foldl_nil, Placement.moveBy, yawTurns,
    tiltTurns, lengthSlides, Placement.locate, Placement.start, Matrix.mulVec_add, zero_add,
    Matrix.one_mulVec, one_mul, ← Matrix.mulVec_mulVec, add_assoc]

namespace IsHexapod

variable {offsetAllowed : Bool} {platform : List (Joint κ)}

noncomputable def target (problem : Problem κ) (assignment : Assignment)
    (platform : List (Joint κ)) (yaw : Joint κ) : Fin 3 → ℝ :=
  locate assignment platform problem.request.frameA - yaw.anchor.vectorIn assignment

omit [Exact κ] in
theorem anchor_mem_offsets
    (linkage : problem.IsHexapod geometry offsetAllowed platform yaw tilt length direction)
    (joint : Joint κ) (member : joint ∈ platform ++ [yaw, tilt, length]) :
    joint.anchor ∈ problem.offsets := by
  rw [offsets, linkage.legs]
  exact List.mem_append_left _ (List.mem_map_of_mem member)

theorem along_leg (start travel tip : ℝ) :
    ![start, 0, 0] + travel • ![1, 0, 0] + ![tip, 0, 0] = ![travel + (start + tip), 0, 0] := by
  funext index
  fin_cases index
  · simp only [Fin.zero_eta, Pi.add_apply, Pi.smul_apply, Matrix.cons_val_zero, smul_eq_mul]
    ring
  · simp
  · simp

theorem closedAt
    (linkage : problem.IsHexapod geometry offsetAllowed platform yaw tilt length direction)
    (settled : problem.Solved geometry) (measured : problem.Measured geometry .univ assignment)
    (straight : direction.vector = ![1, 0, 0]) {travel yawAngle tiltAngle : ℝ}
    (reaches : Reaches ((tilt.anchor.component 0).valueIn assignment)
      (travel + ((length.anchor.component 0).valueIn assignment +
        (problem.request.frameB.position.component 0).valueIn assignment)) yawAngle tiltAngle
      (target problem assignment platform yaw)) :
    geometry.constraint.entries.length = 3 ∧
      geometry.ClosedAt assignment [travel, yawAngle, tiltAngle] := by
  have count : [travel, yawAngle, tiltAngle].length = geometry.dependent.length := by
    simp [linkage.dependent]
  obtain ⟨a, b, jointsA, jointsB, matched⟩ := linkage.constraint
  have coordinates : ∀ joint ∈ platform ++ [yaw, tilt, length],
      joint.coordinate ∈ geometry.independent ∨ joint.coordinate ∈ geometry.dependent := by
    rw [linkage.independent, linkage.dependent]
    intro joint member
    rcases List.mem_append.mp member with driver | driven
    · exact .inl (List.mem_map_of_mem driver)
    · exact .inr (List.mem_map_of_mem (by simp at driven ⊢; tauto))
  have left := settled.visible_posed measured count
    (.inl ⟨(congrArg Prod.fst linkage.legs).symm, rfl⟩)
    (fun joint member => coordinates joint (List.mem_append_left _ member))
    (fun _ _ _ _ _ _ _ _ hidden => absurd trivial hidden)
  have right := settled.visible_posed measured count
    (.inr ⟨(congrArg Prod.snd linkage.legs).symm, rfl⟩)
    (fun joint member => coordinates joint (List.mem_append_right _ member))
    (fun _ _ _ _ _ _ _ _ hidden => absurd trivial hidden)
  have fixed : locate (geometry.posed assignment [travel, yawAngle, tiltAngle]) platform
      problem.request.frameA = locate assignment platform problem.request.frameA := by
    refine settled.locate_posed
      (fun joint member => linkage.anchor_mem_offsets joint (List.mem_append_left _ member))
      (fun joint member => ?_) problem.frameA_mem_offsets
    rw [linkage.independent]
    exact List.mem_map_of_mem member
  have reached : locate (geometry.posed assignment [travel, yawAngle, tiltAngle]) [yaw, tilt, length]
      problem.request.frameB = locate assignment platform problem.request.frameA := by
    rw [locate_leg linkage.yawTurns linkage.tiltTurns linkage.lengthSlides,
      settled.valueIn_driven 1 (by rw [linkage.dependent]; rfl) rfl,
      settled.valueIn_driven 2 (by rw [linkage.dependent]; rfl) rfl,
      settled.valueIn_driven 0 (by rw [linkage.dependent]; rfl) rfl,
      settled.vectorIn_posed (linkage.anchor_mem_offsets yaw (by simp)),
      settled.vectorIn_posed (linkage.anchor_mem_offsets tilt (by simp)),
      settled.vectorIn_posed (linkage.anchor_mem_offsets length (by simp)),
      settled.vectorIn_posed problem.frameB_mem_offsets,
      vectorIn_of_not_isOffAxis linkage.tiltStraight,
      vectorIn_of_not_isOffAxis linkage.lengthStraight,
      vectorIn_of_not_isOffAxis linkage.tipStraight, straight, along_leg, reaches.eq, target,
      add_sub_cancel]
  rw [← jointsA] at left
  rw [← jointsB] at right
  obtain ⟨three, takes⟩ := takes_mismatch matched left right
  refine ⟨three, count, fun entry member => ?_⟩
  obtain ⟨index, bound, rfl⟩ := List.getElem_of_mem member
  have vanishes := takes ⟨index, three ▸ bound⟩ trivial
  rwa [jointsA, jointsB, fixed, reached, sub_self, Tensor.component, List.getElem?_eq_getElem bound,
    Option.getD_some] at vanishes

theorem takes_target
    (linkage : problem.IsHexapod geometry offsetAllowed platform yaw tilt length direction)
    (settled : problem.Solved geometry) (measured : problem.Measured geometry .univ assignment)
    {point : Tensor κ}
    (subtracted : (located platform problem.request.frameA).sub yaw.anchor = .ok point)
    (three : 3 ≤ point.entries.length) :
    point.entries.length ≤ 3 ∧ ∀ index : Fin 3, (point.component index).Takes assignment
      (target problem assignment platform yaw index) := by
  have visible : ∀ joint ∈ platform, joint.Visible .univ assignment := by
    intro joint member
    constructor
    · exact settled.built.anchor_shape joint
        (problem.mem_joints_of_mem_legs (.inl (by rwa [linkage.legs])))
    · exact measured.offsets _ (linkage.anchor_mem_offsets joint (List.mem_append_left _ member))
    · exact fun _ _ _ _ _ _ hidden => absurd trivial hidden
    · refine measured.driven _ ?_
      rw [linkage.independent]
      exact List.mem_map_of_mem member
  have count := length_located visible linkage.shape
  have lengths := Tensor.length_sub subtracted
  rw [count] at lengths
  refine ⟨lengths.le.trans (min_le_left _ _), fun index => ?_⟩
  have inside : (index : Nat) < yaw.anchor.entries.length :=
    index.isLt.trans_le (three.trans (lengths.le.trans (min_le_right _ _)))
  rw [Tensor.component_sub subtracted (by rw [count]; exact index.isLt) inside]
  exact Expr.takes_minus ((Pose.sees_behind visible).locate linkage.shape
      (measured.offsets _ problem.frameA_mem_offsets) index trivial)
    (measured.offsets _ (linkage.anchor_mem_offsets yaw (by simp)) index trivial).takes

theorem closes
    (linkage : problem.IsHexapod geometry offsetAllowed platform yaw tilt length direction)
    (settled : problem.Solved geometry) (measured : problem.Measured geometry .univ assignment)
    (straight : direction.vector = ![1, 0, 0])
    (apart : offsetAllowed = false → target problem assignment platform yaw ≠ 0) :
    geometry.Closes assignment 3 := by
  obtain ⟨point, subtracted, solved⟩ := linkage.solution
  obtain ⟨count, seen⟩ :=
    linkage.takes_target settled measured subtracted (Leg.three_le_length solved)
  have along (offset : Tensor κ) (member : offset ∈ problem.offsets) :
      (offset.component 0).Takes assignment ((offset.component 0).valueIn assignment) :=
    (measured.offsets offset member 0 trivial).takes
  have extended := Expr.takes_plus
    (along length.anchor (linkage.anchor_mem_offsets length (by simp)))
    (along _ problem.frameB_mem_offsets)
  have offset := along tilt.anchor (linkage.anchor_mem_offsets tilt (by simp))
  obtain ⟨withOffset, without⟩ := Leg.takes_reach _ solved count seen extended
  obtain ⟨far, yawAngle, tiltAngle, takes, reaches⟩ : ∃ far yawAngle tiltAngle,
      List.Forall₂ (Expr.Takes assignment) geometry.solution
        [far - ((length.anchor.component 0).valueIn assignment +
          (problem.request.frameB.position.component 0).valueIn assignment), yawAngle, tiltAngle] ∧
        Reaches ((tilt.anchor.component 0).valueIn assignment) far yawAngle tiltAngle
          (target problem assignment platform yaw) := by
    cases offsetAllowed with
    | true => exact withOffset _ rfl _ offset
    | false =>
        rw [offset.unique (Expr.isZero_takes (linkage.together rfl))]
        exact without rfl (apart rfl)
  obtain ⟨three, closed⟩ := linkage.closedAt settled measured straight
    (by rwa [sub_add_cancel])
  exact Geometry.closes_of_closedAt three takes closed

end IsHexapod

/-- A platform is closed by the solution for the leg that holds it; a leg without an offset only
where its end is not at its beginning. -/
theorem leg_closes (settled : problem.Solved geometry)
    (kind : problem.request.topology = .hexapod ∨ problem.request.topology = .hexapodWithOffset)
    (measured : problem.Measured geometry .univ assignment)
    (straight : ∀ joint ∈ problem.legs.2, ∀ direction, joint.motion = .prismatic direction →
      direction.vector = ![1, 0, 0])
    (apart : problem.request.topology = .hexapod → ∀ base ∈ problem.legs.2.head?,
      locate assignment problem.legs.1 problem.request.frameA ≠ base.anchor.vectorIn assignment) :
    geometry.Closes assignment 3 := by
  obtain ⟨a, b, branched, legs⟩ := exists_branches settled.solved
  have solved := settled.solved
  rcases kind with topology | topology
  · have same : problem.solve = problem.hexapod false a b := by
      rw [solve, branched, topology]
      rfl
    rw [same] at solved
    obtain ⟨platform, yaw, tilt, length, direction, linkage⟩ := hexapod_eq_ok legs solved
    rw [linkage.legs] at straight apart
    exact linkage.closes settled measured (straight length (by simp) direction linkage.lengthSlides)
      fun _ => sub_ne_zero.mpr (apart topology yaw rfl)
  · have same : problem.solve = problem.hexapod true a b := by
      rw [solve, branched, topology]
      rfl
    rw [same] at solved
    obtain ⟨platform, yaw, tilt, length, direction, linkage⟩ := hexapod_eq_ok legs solved
    rw [linkage.legs] at straight
    exact linkage.closes settled measured (straight length (by simp) direction linkage.lengthSlides)
      fun same => by cases same

end

namespace LevelLeg

open Sample

noncomputable def platform : Joint RealNumber :=
  ⟨"platform", .revolute .z, coordinate 1, none, along 1⟩

noncomputable def yaw : Joint RealNumber := ⟨"yaw", .revolute .y, coordinate 2, none, along 0⟩

noncomputable def tilt : Joint RealNumber :=
  ⟨"tilt", .revolute .z, coordinate 3, some ⟨1⟩, along 0⟩

noncomputable def length : Joint RealNumber :=
  ⟨"length", .prismatic ahead, coordinate 4, some ⟨2⟩, along 0⟩

/-- A platform that turns, and whose pivot is held by a leg of length one. -/
noncomputable def holding : Problem RealNumber where
  chain := ⟨[platform, yaw, tilt, length]⟩
  request := ⟨"leg", .hexapod, ⟨"a", some ⟨0⟩, along 0⟩, ⟨"b", some ⟨3⟩, along 1⟩, [⟨0⟩],
    [⟨1⟩, ⟨2⟩, ⟨3⟩]⟩

theorem built : holding.chain.Built := by
  have first : (Chain.empty : Chain RealNumber).add platform = .ok (⟨0⟩, ⟨[platform]⟩) := rfl
  have second : (⟨[platform]⟩ : Chain RealNumber).add yaw = .ok (⟨1⟩, ⟨[platform, yaw]⟩) := rfl
  have third : (⟨[platform, yaw]⟩ : Chain RealNumber).add tilt =
      .ok (⟨2⟩, ⟨[platform, yaw, tilt]⟩) := rfl
  have fourth : (⟨[platform, yaw, tilt]⟩ : Chain RealNumber).add length =
      .ok (⟨3⟩, ⟨[platform, yaw, tilt, length]⟩) := by
    change (Chain.normalize "length" (.prismatic ahead)).bind _ = _
    rw [normalize_ahead]
    rfl
  exact (((Chain.Built.empty.add first).add second).add third).add fourth

theorem isOffAxis_along (distance : ℝ) : isOffAxis (along distance) = false := by
  simp [isOffAxis, along, Tensor.ofColumn, Expr.isZero_zero]

theorem vectorIn_along (distance : ℝ) : (along distance).vectorIn atRest = ![distance, 0, 0] := by
  rw [vectorIn_of_not_isOffAxis (isOffAxis_along distance)]
  exact congrArg (![·, 0, 0]) (takes_along distance 0).valueIn_eq

theorem leg_solvable : ∃ extension, holding.leg false ⟨2⟩ ⟨3⟩ = .ok ⟨none, extension⟩ := by
  have vanishes : (Expr.num ⟨0⟩ : Expr RealNumber).isZero = true := Expr.isZero_zero
  simp only [Problem.leg, bind_eq_ok, joint_eq_ok, check_eq_ok]
  exact ⟨_, tilt, rfl, length, rfl, by simp [tilt, isOffAxis_along], .num ⟨0⟩, rfl,
    by simp [vanishes], by simp [length, holding, isOffAxis_along], _, rfl, _, rfl, rfl⟩

theorem solvable : ∃ constraint solution, holding.solve =
    .ok ⟨[1].map coordinate, [4, 2, 3].map coordinate, constraint, solution⟩ := by
  obtain ⟨extension, leg⟩ := leg_solvable
  have opened : holding.solve = holding.hexapod false [⟨0⟩] [⟨1⟩, ⟨2⟩, ⟨3⟩] := rfl
  have forward : Scalar.isOne (1 : RealNumber) = true := (Exact.isEqual_iff _ _).mpr rfl
  suffices accepted : ∃ geometry, holding.solve = .ok geometry ∧
      geometry.independent = [1].map coordinate ∧ geometry.dependent = [4, 2, 3].map coordinate by
    obtain ⟨⟨_, _, constraint, solution⟩, solved, rfl, rfl⟩ := accepted
    exact ⟨constraint, solution, solved⟩
  simp only [opened, hexapod, bind_eq_ok, check_eq_ok, Prod.exists]
  apply Exists.intro
  refine ⟨⟨by simp, ⟨1⟩, ⟨2⟩, ⟨3⟩, rfl, .y, rfl, by simp, .z, rfl, by simp, ahead, rfl, ?_⟩, ?_⟩
  · simp only [axis_ahead, check_eq_ok, leg, forward, bind_eq_ok]
    exact ⟨by simp, _, rfl, _, rfl, _, rfl, yaw, rfl, _, rfl, _, rfl, _, rfl, rfl⟩
  · exact ⟨rfl, rfl⟩

theorem straight : holding.offsets = [1, 0, 0, 0, 0, 1].map along := rfl

theorem directions (joint : Joint RealNumber) (member : joint ∈ holding.legs.2)
    (direction : Direction RealNumber) (slides : joint.motion = .prismatic direction) :
    direction.vector = ![1, 0, 0] := by
  have legs : holding.legs.2 = [yaw, tilt, length] := rfl
  rw [legs] at member
  simp only [List.mem_cons, List.not_mem_nil, or_false] at member
  rcases member with rfl | rfl | rfl <;> cases slides
  rfl

theorem apart (base : Joint RealNumber) (member : base ∈ holding.legs.2.head?) :
    locate atRest holding.legs.1 holding.request.frameA ≠ base.anchor.vectorIn atRest := by
  have legs : holding.legs = ([platform], [yaw, tilt, length]) := rfl
  have frame : holding.request.frameA.position = along 0 := rfl
  rw [legs, List.head?_cons, Option.mem_some_iff] at member
  subst member
  rw [legs, locate, frame, vectorIn_along]
  intro same
  have first := congrFun same 0
  have rest : (coordinate 1).valueIn atRest = 0 := rfl
  simp [Placement.behind, Placement.moveBy, Placement.locate, Placement.start, platform, yaw,
    vectorIn_along, rest] at first

end LevelLeg

theorem levelLeg_closes :
    ∃ geometry, LevelLeg.holding.solve = .ok geometry ∧ geometry.Closes Sample.atRest 3 := by
  obtain ⟨constraint, solution, solved⟩ := LevelLeg.solvable
  have settled := Sample.settled [1] [4, 2, 3] LevelLeg.straight LevelLeg.built solved rfl rfl
    (by decide) (by decide)
  exact ⟨_, solved, leg_closes settled (.inl rfl) (Sample.measured LevelLeg.straight)
    LevelLeg.directions fun _ => LevelLeg.apart⟩

end Problem

end Mechanism.Loop
