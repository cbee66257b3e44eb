import Mechanism.Loop.Linearization
import Mechanism.Loop.Solution
import Mechanism.Proofs.Numbering.Chain

/-!
Closed forms of loops whose numbers are moved. A loop is accepted or refused alike, and its closed
form and the derivatives of its constraint are the moved ones.
-/

namespace Mechanism.Loop

variable {κ : Type} [Scalar κ] (offset : Nat)

instance : Numbered (Topology κ) := ⟨fun offset topology =>
  match topology with
  | .explicitJoint expression => .explicitJoint (shift offset expression)
  | other => other⟩

instance : Numbered (Request κ) := ⟨fun offset request =>
  ⟨request.name, shift offset request.topology, shift offset request.frameA,
    shift offset request.frameB, request.independent, request.dependent⟩⟩

instance : Numbered (Problem κ) := ⟨fun offset problem =>
  ⟨shift offset problem.chain, shift offset problem.request⟩⟩

instance : Numbered (Geometry κ) := ⟨fun offset geometry =>
  ⟨geometry.independent.map (shift offset), geometry.dependent.map (shift offset),
    shift offset geometry.constraint, geometry.solution.map (shift offset)⟩⟩

instance : Numbered (Leg κ) := ⟨fun offset leg =>
  ⟨leg.offset.map (shift offset), shift offset leg.extension⟩⟩

@[simp] theorem Topology.name_shift (topology : Topology κ) :
    (shift offset topology).name = topology.name := by
  cases topology <;> rfl

@[simp] theorem Topology.allowsFixedFrame_shift (topology : Topology κ) :
    (shift offset topology).allowsFixedFrame = topology.allowsFixedFrame := by
  cases topology <;> rfl

section Fields

variable (request : Request κ) (problem : Problem κ) (geometry : Geometry κ)

@[simp] theorem Request.shift_name : (shift offset request).name = request.name := rfl

@[simp] theorem Request.shift_topology :
    (shift offset request).topology = shift offset request.topology := rfl

@[simp] theorem Request.shift_frameA :
    (shift offset request).frameA = shift offset request.frameA := rfl

@[simp] theorem Request.shift_frameB :
    (shift offset request).frameB = shift offset request.frameB := rfl

@[simp] theorem Request.shift_independent :
    (shift offset request).independent = request.independent := rfl

@[simp] theorem Request.shift_dependent : (shift offset request).dependent = request.dependent := rfl

@[simp] theorem Problem.shift_chain :
    (shift offset problem).chain = shift offset problem.chain := rfl

@[simp] theorem Problem.shift_request :
    (shift offset problem).request = shift offset problem.request := rfl

@[simp] theorem Geometry.shift_mk (independent dependent : List Coordinate) (constraint : Tensor κ)
    (solution : List (Expr κ)) :
    shift offset (Geometry.mk independent dependent constraint solution) =
      ⟨independent.map (shift offset), dependent.map (shift offset), shift offset constraint,
        solution.map (shift offset)⟩ := rfl

@[simp] theorem Geometry.shift_independent :
    (shift offset geometry).independent = geometry.independent.map (shift offset) := rfl

@[simp] theorem Geometry.shift_dependent :
    (shift offset geometry).dependent = geometry.dependent.map (shift offset) := rfl

@[simp] theorem Geometry.shift_constraint :
    (shift offset geometry).constraint = shift offset geometry.constraint := rfl

@[simp] theorem Geometry.shift_solution :
    (shift offset geometry).solution = geometry.solution.map (shift offset) := rfl

@[simp] theorem Leg.shift_mk (apart : Option (Expr κ)) (extension : Expr κ) :
    shift offset (Leg.mk apart extension) = ⟨apart.map (shift offset), shift offset extension⟩ := rfl

end Fields

@[simp] theorem ofChain_shift {α : Type} [Numbered α] (outcome : Except ChainError α) :
    (ofChain (shift offset outcome) : Answer κ α) = shift offset (ofChain outcome) := by
  cases outcome <;> rfl

@[simp] theorem ofAlgebra_shift {α : Type} [Numbered α] (outcome : Except AlgebraError α) :
    (ofAlgebra (shift offset outcome) : Answer κ α) = shift offset (ofAlgebra outcome) := by
  cases outcome <;> rfl

theorem pure_shift {α : Type} [Numbered α] (value : α) :
    (pure (shift offset value) : Answer κ α) = shift offset (pure value) := rfl

namespace Problem

variable (problem : Problem κ)

@[simp] theorem unsupported_shift {α : Type} [Numbered α] (reason : Misfit κ) :
    ((shift offset problem).unsupported reason : Answer κ α) =
      shift offset (problem.unsupported reason) := by
  simp only [unsupported, shift_request, Request.shift_name, Request.shift_topology,
    Topology.name_shift]
  rfl

@[simp] theorem joint_shift (id : JointId) :
    (shift offset problem).joint id = shift offset (problem.joint id) := by
  simp [joint]

@[simp] theorem names_shift (ids : List JointId) :
    (shift offset problem).names ids = problem.names ids := by
  simp [names, Function.comp_def]

variable (branch ids : List JointId) (frame : Frame κ) (id : JointId) (axis : Axis)

@[simp] theorem noJoint_shift :
    (shift offset problem).noJoint branch (shift offset frame) =
      shift offset (problem.noJoint branch frame) := by
  cases branch <;> simp [noJoint]

@[simp] theorem oneJoint_shift :
    (shift offset problem).oneJoint branch (shift offset frame) =
      shift offset (problem.oneJoint branch frame) := by
  rcases branch with _ | ⟨_, _ | ⟨_, _⟩⟩ <;> simp [oneJoint]

@[simp] theorem twoJoints_shift :
    (shift offset problem).twoJoints branch (shift offset frame) =
      shift offset (problem.twoJoints branch frame) := by
  rcases branch with _ | ⟨_, _ | ⟨_, _ | ⟨_, _⟩⟩⟩ <;> simp [twoJoints]

@[simp] theorem threeJoints_shift :
    (shift offset problem).threeJoints branch (shift offset frame) =
      shift offset (problem.threeJoints branch frame) := by
  rcases branch with _ | ⟨_, _ | ⟨_, _ | ⟨_, _ | ⟨_, _⟩⟩⟩⟩ <;> simp [threeJoints]

@[simp] theorem revoluteAxis_shift :
    (shift offset problem).revoluteAxis id = shift offset (problem.revoluteAxis id) := by
  refine bind_shift offset (joint_shift offset problem id) fun joint => ?_
  simp only [Joint.shift_motion, Joint.shift_name]
  cases joint.motion with
  | revolute axis => rfl
  | prismatic direction => exact unsupported_shift offset problem _

@[simp] theorem prismaticDirection_shift :
    (shift offset problem).prismaticDirection id = shift offset (problem.prismaticDirection id) := by
  refine bind_shift offset (joint_shift offset problem id) fun joint => ?_
  simp only [Joint.shift_motion, Joint.shift_name]
  cases joint.motion with
  | revolute axis => exact unsupported_shift offset problem _
  | prismatic direction => rfl

@[simp] theorem commonAxis_shift :
    (shift offset problem).commonAxis ids = shift offset (problem.commonAxis ids) := by
  refine bind_shift offset ?_ fun axes => ?_
  · exact mapM_moved offset ids fun id _ => revoluteAxis_shift offset problem id
  · simp only [shift_list, shift_plain, List.map_id, names_shift]
    rcases Grouping.distinct axes with _ | ⟨_, _ | ⟨_, _⟩⟩
    · exact unsupported_shift offset problem _
    · rfl
    · exact unsupported_shift offset problem _

@[simp] theorem directionInPlane_shift :
    (shift offset problem).directionInPlane id axis =
      shift offset (problem.directionInPlane id axis) := by
  have fixed : ∀ direction : Direction κ,
      shift offset (Tensor.ofColumn (direction.toList.map Expr.number)) =
        Tensor.ofColumn (direction.toList.map Expr.number) := by
    intro direction
    rw [← Tensor.ofColumn_shift]
    simp [Function.comp_def]
  refine bind_shift offset (prismaticDirection_shift offset problem id) fun direction => ?_
  simp only [shift_plain, id_eq]
  rw [shift_ite]
  refine ite_congr rfl (fun _ => ?_) fun _ => ?_
  · refine bind_shift offset (joint_shift offset problem id) fun joint => ?_
    exact unsupported_shift offset problem _
  · rw [← ofAlgebra_shift, ← PlanePoint.project_shift, fixed]

@[simp] theorem coordinates_shift :
    (shift offset problem).coordinates ids = shift offset (problem.coordinates ids) := by
  refine mapM_moved offset ids fun id _ => ?_
  exact bind_shift offset (joint_shift offset problem id) fun joint => rfl

@[simp] theorem partition_shift (independent dependent : List JointId) :
    (shift offset problem).partition independent dependent =
      shift offset (problem.partition independent dependent) := by
  unfold partition
  simp only [shift_request, Request.shift_independent, Request.shift_dependent, names_shift,
    unsupported_shift]
  rw [shift_ite]
  refine ite_congr rfl (fun _ => rfl) fun _ => ?_
  rw [shift_ite]
  refine ite_congr rfl (fun _ => rfl) fun _ => ?_
  refine bind_shift offset (coordinates_shift offset problem independent) fun u => ?_
  exact bind_shift offset (coordinates_shift offset problem dependent) fun v => rfl

@[simp] theorem inPlane_shift (tensor : Tensor κ) :
    inPlane axis (shift offset tensor) = shift offset (inPlane axis tensor) := by
  simp [inPlane]

@[simp] theorem position_shift :
    (shift offset problem).position id = shift offset (problem.position id) := by
  refine bind_shift offset (joint_shift offset problem id) fun joint => ?_
  simp [← pure_shift]

@[simp] theorem anchorInPlane_shift :
    (shift offset problem).anchorInPlane axis id = shift offset (problem.anchorInPlane axis id) := by
  refine bind_shift offset (joint_shift offset problem id) fun joint => ?_
  exact inPlane_shift offset axis joint.anchor

@[simp] theorem mismatch_shift (a b : List JointId) :
    (shift offset problem).mismatch a b = shift offset (problem.mismatch a b) := by
  refine bind_shift offset (by simp) fun first => ?_
  refine bind_shift offset (by simp) fun second => ?_
  simp

@[simp] theorem mismatchInPlane_shift (a b : List JointId) :
    (shift offset problem).mismatchInPlane axis a b =
      shift offset (problem.mismatchInPlane axis a b) := by
  refine bind_shift offset (mismatch_shift offset problem a b) fun whole => ?_
  simp

@[simp] theorem fourBar_shift (posture : Posture) (a b : List JointId) :
    (shift offset problem).fourBar posture a b = shift offset (problem.fourBar posture a b) := by
  refine bind_shift offset (by simp) fun (crank, coupler) => ?_
  refine bind_shift offset (by simp) fun rocker => ?_
  refine bind_shift offset (commonAxis_shift offset problem _) fun axis => ?_
  refine bind_shift offset (partition_shift offset problem _ _) fun (independent, dependent) => ?_
  refine bind_shift offset (anchorInPlane_shift offset problem _ _) fun crankPivot => ?_
  refine bind_shift offset (anchorInPlane_shift offset problem _ _) fun crankLink => ?_
  refine bind_shift offset (inPlane_shift offset _ _) fun couplerLink => ?_
  refine bind_shift offset (anchorInPlane_shift offset problem _ _) fun rockerPivot => ?_
  refine bind_shift offset (inPlane_shift offset _ _) fun rockerLink => ?_
  refine bind_shift offset (position_shift offset problem _) fun angle => ?_
  simp only [FourBar.follow_shift]
  exact bind_shift offset (mismatchInPlane_shift offset problem _ _ _) fun constraint => rfl

@[simp] theorem sliderOffset_shift (slider : JointId) :
    (shift offset problem).sliderOffset axis slider =
      shift offset (problem.sliderOffset axis slider) := by
  refine bind_shift offset (anchorInPlane_shift offset problem _ _) fun anchor => ?_
  refine bind_shift offset (inPlane_shift offset _ _) fun tip => ?_
  rw [PlanePoint.add_shift, pure_shift]

@[simp] theorem fourBarTrans_shift (a b : List JointId) :
    (shift offset problem).fourBarTrans a b = shift offset (problem.fourBarTrans a b) := by
  refine bind_shift offset (by simp) fun (crank, coupler) => ?_
  refine bind_shift offset (by simp) fun (pivot, slider) => ?_
  refine bind_shift offset (commonAxis_shift offset problem _) fun axis => ?_
  refine bind_shift offset (directionInPlane_shift offset problem _ _) fun direction => ?_
  refine bind_shift offset (partition_shift offset problem _ _) fun (independent, dependent) => ?_
  refine bind_shift offset (position_shift offset problem _) fun crankAngle => ?_
  refine bind_shift offset (position_shift offset problem _) fun couplerAngle => ?_
  refine bind_shift offset (anchorInPlane_shift offset problem _ _) fun crankPivot => ?_
  refine bind_shift offset (anchorInPlane_shift offset problem _ _) fun crankLink => ?_
  refine bind_shift offset (inPlane_shift offset _ _) fun couplerLink => ?_
  refine bind_shift offset (anchorInPlane_shift offset problem _ _) fun pivotPoint => ?_
  refine bind_shift offset (sliderOffset_shift offset problem _ _) fun rest => ?_
  simp only [PlanePoint.rotate_shift, PlanePoint.add_shift, PlanePoint.sub_shift, Expr.add_shift,
    PivotedSlider.reach_shift]
  exact bind_shift offset (mismatchInPlane_shift offset problem _ _ _) fun constraint => rfl

@[simp] theorem threeBarTrans_shift (a b : List JointId) :
    (shift offset problem).threeBarTrans a b = shift offset (problem.threeBarTrans a b) := by
  refine bind_shift offset (by simp) fun crank => ?_
  refine bind_shift offset (by simp) fun (pivot, slider) => ?_
  refine bind_shift offset (commonAxis_shift offset problem _) fun axis => ?_
  refine bind_shift offset (directionInPlane_shift offset problem _ _) fun direction => ?_
  refine bind_shift offset (partition_shift offset problem _ _) fun (independent, dependent) => ?_
  refine bind_shift offset (position_shift offset problem _) fun crankAngle => ?_
  refine bind_shift offset (anchorInPlane_shift offset problem _ _) fun crankPivot => ?_
  refine bind_shift offset (inPlane_shift offset _ _) fun crankLink => ?_
  refine bind_shift offset (anchorInPlane_shift offset problem _ _) fun pivotPoint => ?_
  refine bind_shift offset (sliderOffset_shift offset problem _ _) fun rest => ?_
  simp only [PlanePoint.rotate_shift, PlanePoint.add_shift, PlanePoint.sub_shift,
    PivotedSlider.reach_shift]
  exact bind_shift offset (mismatchInPlane_shift offset problem _ _ _) fun constraint => rfl

@[simp] theorem crankSlider_shift (posture : Posture) (a b : List JointId) :
    (shift offset problem).crankSlider posture a b =
      shift offset (problem.crankSlider posture a b) := by
  refine bind_shift offset (by simp) fun crank => ?_
  refine bind_shift offset (by simp) fun (slider, rod) => ?_
  refine bind_shift offset (commonAxis_shift offset problem _) fun axis => ?_
  refine bind_shift offset (directionInPlane_shift offset problem _ _) fun direction => ?_
  refine bind_shift offset (partition_shift offset problem _ _) fun (independent, dependent) => ?_
  refine bind_shift offset (position_shift offset problem _) fun crankAngle => ?_
  refine bind_shift offset (anchorInPlane_shift offset problem _ _) fun crankPivot => ?_
  refine bind_shift offset (inPlane_shift offset _ _) fun crankLink => ?_
  refine bind_shift offset (anchorInPlane_shift offset problem _ _) fun sliderPoint => ?_
  refine bind_shift offset (anchorInPlane_shift offset problem _ _) fun rodPivot => ?_
  refine bind_shift offset (inPlane_shift offset _ _) fun rodLink => ?_
  simp only [PlanePoint.rotate_shift, PlanePoint.add_shift, PlanePoint.sub_shift,
    SlidingRod.reach_shift]
  exact bind_shift offset (mismatchInPlane_shift offset problem _ _ _) fun constraint => rfl

@[simp] theorem steering_shift (posture : Posture) (a b : List JointId) :
    (shift offset problem).steering posture a b = shift offset (problem.steering posture a b) := by
  refine bind_shift offset (noJoint_shift offset problem _ _) fun _ => ?_
  refine bind_shift offset (by simp) fun (rack, tieRod, knuckle) => ?_
  refine bind_shift offset (commonAxis_shift offset problem _) fun axis => ?_
  refine bind_shift offset (directionInPlane_shift offset problem _ _) fun direction => ?_
  refine bind_shift offset (partition_shift offset problem _ _) fun (independent, dependent) => ?_
  refine bind_shift offset (position_shift offset problem _) fun travel => ?_
  refine bind_shift offset (anchorInPlane_shift offset problem _ _) fun rackPoint => ?_
  refine bind_shift offset (anchorInPlane_shift offset problem _ _) fun tieRodPivot => ?_
  refine bind_shift offset (inPlane_shift offset _ _) fun kingpin => ?_
  refine bind_shift offset (anchorInPlane_shift offset problem _ _) fun tieRodLink => ?_
  refine bind_shift offset (inPlane_shift offset _ _) fun knuckleLink => ?_
  simp only [PlanePoint.scale_shift, PlanePoint.add_shift, TwoLinkArm.reach_shift]
  exact bind_shift offset (mismatchInPlane_shift offset problem _ _ _) fun constraint => rfl

@[simp] theorem isOffAxis_shift (point : Tensor κ) :
    isOffAxis (shift offset point) = isOffAxis point := by
  simp [isOffAxis, ← List.map_tail, Function.comp_def]

@[simp] theorem leg_shift (offsetAllowed : Bool) (tilt length : JointId) :
    (shift offset problem).leg offsetAllowed tilt length =
      shift offset (problem.leg offsetAllowed tilt length) := by
  refine bind_shift offset (joint_shift offset problem _) fun tiltJoint => ?_
  refine bind_shift offset (joint_shift offset problem _) fun lengthJoint => ?_
  simp only [Joint.shift_anchor, isOffAxis_shift, shift_request, Request.shift_frameB,
    Frame.shift_position, Frame.shift_name, Tensor.entryAt_shift, ofAlgebra_shift, unsupported_shift]
  refine guard_shift offset rfl ?_
  refine bind_shift offset rfl fun apart => ?_
  simp only [Expr.isZero_shift]
  refine guard_shift offset rfl ?_
  refine guard_shift offset rfl ?_
  refine bind_shift offset rfl fun start => ?_
  refine bind_shift offset rfl fun tip => ?_
  rw [Expr.add_shift, ← pure_shift, Leg.shift_mk]
  cases offsetAllowed <;> rfl

theorem reach_shift (leg : Leg κ) (target : Tensor κ) :
    (shift offset leg).reach (shift offset target) = shift offset (leg.reach target) := by
  refine bind_shift offset (Tensor.entryAt_shift offset target 0) fun x => ?_
  refine bind_shift offset (Tensor.entryAt_shift offset target 1) fun y => ?_
  refine bind_shift offset (Tensor.entryAt_shift offset target 2) fun z => ?_
  obtain ⟨apart, extension⟩ := leg
  cases apart with
  | some apart =>
      simp only [Leg.shift_mk, Option.map_some, Expr.neg_shift, Expr.angleOf_shift,
        Expr.square_shift, Expr.add_shift, Expr.squareRoot_shift, Expr.sub_shift]
      rfl
  | none =>
      refine bind_shift offset (Tensor.norm_shift offset target) fun length => ?_
      simp only [Leg.shift_mk, Expr.neg_shift, Expr.angleOf_shift, Expr.sub_shift, Expr.div_shift,
        Expr.apply_shift]
      rfl

/-- What is left of the solution of a leg once its joints have been found to be supported. -/
def reachPlatform (problem : Problem κ) (offsetAllowed : Bool) (a b : List JointId)
    (yaw tilt length : JointId) : Answer κ (Geometry κ) := do
  let leg ← problem.leg offsetAllowed tilt length
  let (independent, dependent) ← problem.partition a [length, yaw, tilt]
  let platform ← ofChain (problem.chain.positionOf a problem.request.frameA)
  let target ← ofAlgebra (platform.sub (← problem.joint yaw).anchor)
  let solution ← ofAlgebra (leg.reach target)
  let constraint ← problem.mismatch a b
  return ⟨independent, dependent, constraint, solution⟩

theorem reachPlatform_shift (offsetAllowed : Bool) (a b : List JointId)
    (yaw tilt length : JointId) :
    reachPlatform (shift offset problem) offsetAllowed a b yaw tilt length =
      shift offset (reachPlatform problem offsetAllowed a b yaw tilt length) := by
  refine bind_shift offset (leg_shift offset problem _ _ _) fun leg => ?_
  refine bind_shift offset (partition_shift offset problem _ _) ?_
  rintro ⟨independent, dependent⟩
  refine bind_shift offset (by simp) fun platform => ?_
  refine bind_shift offset (joint_shift offset problem _) fun joint => ?_
  refine bind_shift offset (by simp) fun target => ?_
  refine bind_shift offset (by simp [reach_shift]) fun solution => ?_
  exact bind_shift offset (mismatch_shift offset problem _ _) fun constraint => rfl

@[simp] theorem hexapod_shift (offsetAllowed : Bool) (a b : List JointId) :
    (shift offset problem).hexapod offsetAllowed a b =
      shift offset (problem.hexapod offsetAllowed a b) := by
  refine guard_shift offset (unsupported_shift offset problem _) ?_
  refine bind_shift offset (threeJoints_shift offset problem _ _) ?_
  rintro ⟨yaw, tilt, length⟩
  refine bind_shift offset (revoluteAxis_shift offset problem _) fun first => ?_
  refine guard_shift offset (unsupported_shift offset problem _) ?_
  refine bind_shift offset (revoluteAxis_shift offset problem _) fun second => ?_
  refine guard_shift offset (unsupported_shift offset problem _) ?_
  refine bind_shift offset (prismaticDirection_shift offset problem _) fun direction => ?_
  have solved := reachPlatform_shift offset problem offsetAllowed a b yaw tilt length
  have turned : (shift offset problem).unsupported .legDirection =
      shift offset (problem.unsupported .legDirection : Answer κ Unit) :=
    unsupported_shift offset problem _
  simp only [shift_plain, id_eq]
  rcases direction.axis? with _ | ⟨_ | _ | _, sign⟩
  · exact bind_shift offset turned fun _ => solved
  · exact guard_shift offset turned solved
  · exact bind_shift offset turned fun _ => solved
  · exact bind_shift offset turned fun _ => solved

@[simp] theorem coupling_shift (accepted : Nat → Bool) :
    (shift offset problem).coupling accepted = shift offset (problem.coupling accepted) := by
  unfold coupling
  simp only [shift_request, Request.shift_dependent, Request.shift_independent, names_shift,
    unsupported_shift]
  rcases problem.request.dependent with _ | ⟨follower, _ | ⟨second, rest⟩⟩
  · rfl
  · refine guard_shift offset rfl ?_
    refine guard_shift offset rfl ?_
    refine bind_shift offset (coordinates_shift offset problem _) fun independent => ?_
    exact bind_shift offset (joint_shift offset problem _) fun joint => rfl
  · rfl

@[simp] theorem coupled_shift (independent : List Coordinate) (dependent : Coordinate)
    (driven : Expr κ) :
    coupled (independent.map (shift offset)) (shift offset dependent) (shift offset driven) =
      shift offset (coupled independent dependent driven) := by
  simp [coupled]

@[simp] theorem transmission_shift (ratio : κ) :
    (shift offset problem).transmission ratio = shift offset (problem.transmission ratio) := by
  refine guard_shift offset (unsupported_shift offset problem _) ?_
  refine bind_shift offset (coupling_shift offset problem _) fun (independent, dependent) => ?_
  simp only [shift_pair, shift_list, shift_request, Request.shift_independent, names_shift,
    unsupported_shift]
  rcases independent with _ | ⟨driver, _ | ⟨second, rest⟩⟩
  · rfl
  · have moved := coupled_shift offset [driver] dependent
      (Expr.number ratio * driver.positionExpr)
    rw [← Expr.number_mul_shift, ← Coordinate.positionExpr_shift] at moved
    exact congrArg Except.ok moved
  · rfl

@[simp] theorem explicitJoint_shift (expression : Expr κ) :
    (shift offset problem).explicitJoint (shift offset expression) =
      shift offset (problem.explicitJoint expression) := by
  refine bind_shift offset (coupling_shift offset problem _) fun (independent, dependent) => ?_
  simp only [shift_pair, shift_list, Expr.symbols_shift, Coordinate.shift_position,
    contains_map_shift, Coordinate.shift_name, unsupported_shift, coupled_shift]
  exact guard_shift offset rfl rfl

@[simp] theorem solve_shift : (shift offset problem).solve = shift offset problem.solve := by
  refine bind_shift offset ?_ fun (a, b) => ?_
  · rw [← ofChain_shift, ← Chain.branches_shift]
    rfl
  simp only [shift_request, Request.shift_topology, shift_pair, shift_list, shift_plain,
    List.map_id]
  cases problem.request.topology with
  | fourBar posture => exact fourBar_shift offset problem posture a b
  | fourBarTrans => exact fourBarTrans_shift offset problem a b
  | threeBarTrans => exact threeBarTrans_shift offset problem a b
  | crankSlider posture => exact crankSlider_shift offset problem posture a b
  | steering posture => exact steering_shift offset problem posture a b
  | hexapod => exact hexapod_shift offset problem false a b
  | hexapodWithOffset => exact hexapod_shift offset problem true a b
  | transmission ratio => exact transmission_shift offset problem ratio
  | explicitJoint expression => exact explicitJoint_shift offset problem expression

end Problem

instance : Numbered (Jacobians κ) := ⟨fun offset jacobians =>
  ⟨shift offset jacobians.independent, shift offset jacobians.dependent⟩⟩

instance : Numbered (Derivation κ) := ⟨fun offset derivation =>
  ⟨shift offset derivation.geometry, shift offset derivation.jacobians,
    shift offset derivation.drift⟩⟩

section Fields

variable (jacobians : Jacobians κ) (derivation : Derivation κ)

@[simp] theorem Jacobians.shift_independent :
    (shift offset jacobians).independent = shift offset jacobians.independent := rfl

@[simp] theorem Jacobians.shift_dependent :
    (shift offset jacobians).dependent = shift offset jacobians.dependent := rfl

@[simp] theorem Derivation.shift_geometry :
    (shift offset derivation).geometry = shift offset derivation.geometry := rfl

@[simp] theorem Derivation.shift_jacobians :
    (shift offset derivation).jacobians = shift offset derivation.jacobians := rfl

@[simp] theorem Derivation.shift_drift :
    (shift offset derivation).drift = shift offset derivation.drift := rfl

end Fields

namespace Geometry

variable (geometry : Geometry κ)

@[simp] theorem jacobians_shift :
    (shift offset geometry).jacobians = shift offset geometry.jacobians := by
  have atoms : ∀ coordinates : List Coordinate,
      (coordinates.map (shift offset)).map Coordinate.atom =
        (coordinates.map Coordinate.atom).map (shift offset) := by
    intro coordinates
    simp [Function.comp_def]
  unfold jacobians
  simp only [shift_constraint, shift_independent, shift_dependent, atoms, Tensor.jacobian_shift]
  refine bind_shift offset rfl fun independent => ?_
  exact bind_shift offset rfl fun dependent => rfl

@[simp] theorem drift_shift : (shift offset geometry).drift = shift offset geometry.drift := by
  have atoms : ((geometry.independent ++ geometry.dependent).map (shift offset)).map Coordinate.atom =
      ((geometry.independent ++ geometry.dependent).map Coordinate.atom).map (shift offset) := by
    simp [Function.comp_def]
  have velocities : (((geometry.independent ++ geometry.dependent).map (shift offset)).map
      Coordinate.velocityExpr : List (Expr κ)) =
        ((geometry.independent ++ geometry.dependent).map Coordinate.velocityExpr).map
          (shift offset) := by
    simp [Function.comp_def]
  unfold drift
  simp only [shift_constraint, shift_independent, shift_dependent, ← List.map_append, atoms,
    velocities, Tensor.jacobian_shift, Tensor.ofColumn_shift]
  refine bind_shift offset rfl fun slope => ?_
  refine bind_shift offset (Tensor.matmul_shift offset _ _) fun rate => ?_
  refine bind_shift offset (Tensor.jacobian_shift offset _ _) fun bend => ?_
  exact Tensor.matmul_shift offset _ _

end Geometry

end Mechanism.Loop
