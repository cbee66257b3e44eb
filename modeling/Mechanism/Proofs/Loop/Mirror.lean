import Mechanism.Proofs.Loop.Acceptance
import Mechanism.Proofs.Loop.Base
import Mechanism.Proofs.Loop.Circles

/-!
Mirrored linkages. Four-bar and steering linkages that are mirrored in the first direction of their
motion plane, and asked for the other posture, are solved by the opposite angles.
-/

namespace Mechanism

open scoped ComplexConjugate

/-! ### Mirrored circles -/

theorem heading_neg (angle : ℝ) : heading (-angle) = conj (heading angle) := by
  rw [heading_eq, heading_eq, Real.cos_neg, Real.sin_neg]
  rfl

namespace RealCircle

noncomputable def mirror (circle : RealCircle) : RealCircle := ⟨conj circle.center, circle.radius⟩

variable (first second : RealCircle)

theorem distance_mirror : first.mirror.distance second.mirror = first.distance second := by
  rw [distance, mirror, mirror, ← map_sub, Complex.norm_conj, distance]

theorem along_mirror : first.mirror.along second.mirror = first.along second := by
  rw [along, distance_mirror, along, mirror, mirror]

theorem radicand_mirror : first.mirror.radicand second.mirror = first.radicand second := by
  rw [radicand, along_mirror, radicand, mirror]

theorem crossing_mirror (sign : ℝ) :
    first.mirror.crossing second.mirror (-sign) = conj (first.crossing second sign) := by
  rw [crossing, along_mirror, distance_mirror, radicand_mirror, crossing, mirror, mirror]
  simp only [map_add, map_mul, map_sub, Complex.conj_ofReal, Complex.conj_I]
  push_cast
  ring

variable {first second}

theorem Meets.mirror (meets : first.Meets second) : first.mirror.Meets second.mirror where
  apart := fun same => meets.apart (star_injective same)
  nonneg := by
    rw [radicand_mirror]
    exact meets.nonneg

end RealCircle

/-! ### Mirrored offsets -/

variable {κ : Type} [Scalar κ]

/-- The second component in the motion plane of the axis is the opposite one. -/
def Tensor.mirror (axis : Axis) (offset : Tensor κ) : Tensor κ :=
  ⟨offset.shape, offset.entries.modify axis.ordinate Expr.negate⟩

def Direction.mirror (axis : Axis) (direction : Direction κ) : Direction κ :=
  match axis with
  | .x => { direction with z := -direction.z }
  | .y => { direction with x := -direction.x }
  | .z => { direction with y := -direction.y }

/-- The given coordinates have the opposite values. -/
noncomputable def Assignment.opposing (assignment : Assignment) (coordinates : List Coordinate) :
    Assignment :=
  fun atom =>
    if atom ∈ coordinates.map Coordinate.atom then (assignment atom).map (-·) else assignment atom

namespace Assignment

variable {assignment : Assignment} {coordinates : List Coordinate}

theorem opposing_of_not_mem {atom : Atom} (absent : atom ∉ coordinates.map Coordinate.atom) :
    assignment.opposing coordinates atom = assignment atom := if_neg absent

theorem opposing_of_mem {coordinate : Coordinate} (member : coordinate ∈ coordinates) :
    assignment.opposing coordinates coordinate.atom = (assignment coordinate.atom).map (-·) :=
  if_pos (List.mem_map_of_mem member)

theorem valueIn_opposing {coordinate : Coordinate} (member : coordinate ∈ coordinates) :
    coordinate.valueIn (assignment.opposing coordinates) = -coordinate.valueIn assignment := by
  rw [Coordinate.valueIn, Coordinate.valueIn, opposing_of_mem member]
  cases assignment coordinate.atom <;> simp

end Assignment

namespace Tensor

variable (axis : Axis) (offset : Tensor κ)

@[simp] theorem shape_mirror : (offset.mirror axis).shape = offset.shape := rfl

theorem component_mirror_abscissa :
    (offset.mirror axis).component axis.abscissa = offset.component axis.abscissa := by
  have apart : axis.ordinate.val ≠ axis.abscissa.val := by cases axis <;> decide
  simp only [component, mirror, List.getElem?_modify, if_neg apart, Option.map_eq_map, Option.map_id']

theorem component_mirror_ordinate : (offset.mirror axis).component axis.ordinate =
    (offset.entries[axis.ordinate.val]?.map Expr.negate).getD .zero := by
  simp only [component, mirror, List.getElem?_modify, if_true, Option.map_eq_map]

theorem exists_entryAt_mirror {index : Nat} {entry : Expr κ}
    (found : offset.entryAt index = .ok entry) :
    ∃ mirrored, (offset.mirror axis).entryAt index = .ok mirrored := by
  obtain ⟨bound, known⟩ := entryAt_eq_ok.mp found
  have placed : ∃ mirrored, (offset.mirror axis).entries[index]? = some mirrored := by
    rw [mirror, List.getElem?_modify, known]
    exact ⟨_, rfl⟩
  obtain ⟨mirrored, there⟩ := placed
  exact ⟨mirrored, entryAt_eq_ok.mpr ⟨bound, there⟩⟩

variable [Exact κ] {axis offset} {left right : Assignment}

theorem takes_component_congr (agree : ∀ atom ∈ offset.atoms, left atom = right atom) {index : Nat}
    {value : ℝ} (takes : (offset.component index).Takes left value) :
    (offset.component index).Takes right value := by
  refine Expr.carries_of_agree _ (fun atom reads number known => ?_) value takes
  rw [← known, agree atom]
  rw [mem_atoms]
  cases found : offset.entries[index]? with
  | none =>
      rw [component, found, Option.getD_none, Expr.zero, Expr.occurrences] at reads
      cases reads
  | some entry =>
      rw [component, found, Option.getD_some] at reads
      exact ⟨entry, List.mem_of_getElem? found, reads⟩

theorem takes_mirror (agree : ∀ atom ∈ offset.atoms, left atom = right atom) {point : ℂ}
    (takes : (PlanePoint.ofOffset axis offset).Takes left point) :
    (PlanePoint.ofOffset axis (offset.mirror axis)).Takes right (conj point) := by
  have x := takes_component_congr agree takes.x
  have y := takes_component_congr agree takes.y
  constructor
  · rw [PlanePoint.ofOffset, component_mirror_abscissa]
    exact x
  · rw [PlanePoint.ofOffset, component_mirror_ordinate, Complex.conj_im]
    rw [component] at y
    cases found : offset.entries[axis.ordinate.val]? with
    | none =>
        rw [found, Option.getD_none] at y
        rw [y.unique Expr.takes_zero, neg_zero]
        exact Expr.takes_zero
    | some entry =>
        rw [found, Option.getD_some] at y
        exact Expr.takes_negate y

theorem shadowIn_mirror (agree : ∀ atom ∈ offset.atoms, left atom = right atom)
    (defined : ∀ index ∈ axis.inPlane, (offset.component index).Defined left) :
    (offset.mirror axis).shadowIn right axis = conj (offset.shadowIn left axis) := by
  have takes := takes_mirror agree (PlanePoint.takes_ofOffset defined)
  exact Complex.ext takes.x.valueIn_eq takes.y.valueIn_eq

theorem defined_mirror (agree : ∀ atom ∈ offset.atoms, left atom = right atom)
    (defined : ∀ index ∈ axis.inPlane, (offset.component index).Defined left) :
    ∀ index ∈ axis.inPlane, ((offset.mirror axis).component index).Defined right := by
  have takes := takes_mirror agree (PlanePoint.takes_ofOffset defined)
  rintro index (rfl | rfl)
  · exact takes.x.defined
  · exact takes.y.defined

end Tensor

theorem Direction.shadow_mirror [Exact κ] (axis : Axis) (direction : Direction κ) :
    axis.shadow (direction.mirror axis).vector = conj (axis.shadow direction.vector) := by
  cases axis <;> apply Complex.ext <;>
    simp [Axis.shadow, Axis.abscissa, Axis.ordinate, mirror, vector, Exact.real_neg]

/-! ### Mirrored linkages -/

def Motion.mirror (axis : Axis) : Motion κ → Motion κ
  | .revolute other => .revolute other
  | .prismatic direction => .prismatic (direction.mirror axis)

def Joint.mirror (axis : Axis) (joint : Joint κ) : Joint κ :=
  { joint with motion := joint.motion.mirror axis, anchor := joint.anchor.mirror axis }

def Frame.mirror (axis : Axis) (frame : Frame κ) : Frame κ :=
  { frame with position := frame.position.mirror axis }

def Chain.mirror (axis : Axis) (chain : Chain κ) : Chain κ := ⟨chain.joints.map (Joint.mirror axis)⟩

namespace Chain

variable (axis : Axis) (chain : Chain κ)

theorem joint?_mirror (id : JointId) :
    (chain.mirror axis).joint? id = (chain.joint? id).map (Joint.mirror axis) := List.getElem?_map

theorem ascend_mirror (fuel : Nat) (body : Option JointId) :
    (chain.mirror axis).ascend fuel body = chain.ascend fuel body := by
  induction fuel generalizing body with
  | zero => cases body <;> rfl
  | succ fuel ih =>
      cases body with
      | none => rfl
      | some id =>
          simp only [ascend]
          rw [joint, joint, joint?_mirror]
          cases chain.joint? id with
          | none => rfl
          | some joint => exact congrArg (· >>= fun rest => pure (id :: rest)) (ih joint.parent)

theorem branches_mirror (a b : Option JointId) :
    (chain.mirror axis).branches a b = chain.branches a b := by
  have length : (chain.mirror axis).length = chain.length := List.length_map _
  simp only [branches, path, ascend_mirror, length]

variable {chain}

theorem known_of_positionOf {ids : List JointId} {frame : Frame κ} {position : Tensor κ}
    (found : chain.positionOf ids frame = .ok position) :
    ∀ id ∈ ids, ∃ joint, chain.joint? id = some joint := by
  simp only [positionOf, bind_eq_ok] at found
  obtain ⟨_, _, _, found, _⟩ := found
  have each := Simplifier.mapM_eq_ok found
  intro id member
  obtain ⟨place, bound, rfl⟩ := List.getElem_of_mem member
  exact ⟨_, joint_eq_ok.mp (each.get bound (each.length_eq ▸ bound))⟩

end Chain

namespace Loop

def Posture.opposite : Posture → Posture
  | .positive => .negative
  | .negative => .positive

def Topology.opposite : Topology κ → Topology κ
  | .fourBar posture => .fourBar posture.opposite
  | .crankSlider posture => .crankSlider posture.opposite
  | .steering posture => .steering posture.opposite
  | other => other

theorem Posture.real_sign_opposite [Exact κ] (posture : Posture) :
    Exact.real (posture.opposite.sign : κ) = -Exact.real (posture.sign : κ) := by
  cases posture <;> simp [opposite, sign, Exact.real_neg]

/-- All links and slides are mirrored, and the other posture is meant. -/
def Problem.mirror (axis : Axis) (problem : Problem κ) : Problem κ where
  chain := problem.chain.mirror axis
  request := { problem.request with
    topology := problem.request.topology.opposite
    frameA := problem.request.frameA.mirror axis
    frameB := problem.request.frameB.mirror axis }

namespace Problem

variable (problem : Problem κ) (axis : Axis)

@[simp] theorem joint_mirror (id : JointId) :
    (problem.mirror axis).joint id = (problem.joint id).map (Joint.mirror axis) := by
  rw [Problem.joint, Chain.joint, mirror, Chain.joint?_mirror, Problem.joint, Chain.joint]
  cases problem.chain.joint? id <;> rfl

theorem jointsOf_mirror (ids : List JointId) :
    (problem.mirror axis).jointsOf ids = (problem.jointsOf ids).map (Joint.mirror axis) := by
  rw [jointsOf, jointsOf, List.map_filterMap]
  exact List.filterMap_congr fun id _ => Chain.joint?_mirror axis problem.chain id

theorem branches_mirror : (problem.mirror axis).chain.branches
      (problem.mirror axis).request.frameA.body (problem.mirror axis).request.frameB.body =
    problem.chain.branches problem.request.frameA.body problem.request.frameB.body :=
  Chain.branches_mirror axis problem.chain _ _

theorem legs_mirror : (problem.mirror axis).legs =
    (problem.legs.1.map (Joint.mirror axis), problem.legs.2.map (Joint.mirror axis)) := by
  simp only [legs, branches_mirror]
  split
  · exact Prod.ext (jointsOf_mirror problem axis _) (jointsOf_mirror problem axis _)
  · rfl

theorem offsets_mirror :
    (problem.mirror axis).offsets = problem.offsets.map (Tensor.mirror axis) := by
  rw [offsets, legs_mirror, offsets, List.map_append, List.map_append, List.map_append, List.map_map,
    List.map_map, List.map_append, List.map_map, List.map_map]
  rfl

/-! ### Acceptance -/

theorem unsupported_mirror {α : Type} (reason : Misfit κ) :
    ((problem.mirror axis).unsupported reason : Answer κ α) = problem.unsupported reason := by
  have name : problem.request.topology.opposite.name = problem.request.topology.name := by
    cases problem.request.topology <;> rfl
  rw [unsupported, unsupported]
  exact congrArg
    (fun name => Except.error (LoopError.unsupportedTopology problem.request.name name reason)) name

theorem names_mirror (ids : List JointId) : (problem.mirror axis).names ids = problem.names ids := by
  refine List.map_congr_left fun id _ => ?_
  rw [show (problem.mirror axis).chain.joint? id = _ from Chain.joint?_mirror axis problem.chain id]
  cases problem.chain.joint? id <;> rfl

theorem revoluteAxis_mirror (id : JointId) :
    (problem.mirror axis).revoluteAxis id = problem.revoluteAxis id := by
  rw [revoluteAxis, joint_mirror, revoluteAxis]
  cases problem.joint id with
  | error _ => rfl
  | ok joint =>
      obtain ⟨name, motion, _, _, _⟩ := joint
      cases motion with
      | revolute _ => rfl
      | prismatic _ => exact unsupported_mirror problem axis _

theorem commonAxis_mirror (ids : List JointId) :
    (problem.mirror axis).commonAxis ids = problem.commonAxis ids := by
  have each : (problem.mirror axis).revoluteAxis = problem.revoluteAxis :=
    funext (revoluteAxis_mirror problem axis)
  simp only [commonAxis, each, names_mirror, unsupported_mirror]

theorem coordinates_mirror (ids : List JointId) :
    (problem.mirror axis).coordinates ids = problem.coordinates ids := by
  rw [coordinates, coordinates]
  congr 1
  funext id
  rw [joint_mirror]
  cases problem.joint id <;> rfl

theorem partition_mirror (independent dependent : List JointId) :
    (problem.mirror axis).partition independent dependent = problem.partition independent dependent := by
  simp only [partition, coordinates_mirror, names_mirror, unsupported_mirror]
  rfl

theorem position_mirror (id : JointId) :
    (problem.mirror axis).position id = problem.position id := by
  rw [position, joint_mirror, position]
  cases problem.joint id <;> rfl

variable {problem axis} {other : Axis} {a b : List JointId} {posture : Posture}
  {geometry : Geometry κ}

variable (axis) in
theorem exists_inPlane_mirror {offset : Tensor κ} {point : PlanePoint κ}
    (found : inPlane other offset = .ok point) :
    ∃ mirrored, inPlane other (offset.mirror axis) = .ok mirrored := by
  simp only [inPlane, PlanePoint.project, ofAlgebra_eq_ok, bind_eq_ok] at found ⊢
  obtain ⟨x, foundX, y, foundY, _⟩ := found
  obtain ⟨x', againX⟩ := Tensor.exists_entryAt_mirror axis offset foundX
  obtain ⟨y', againY⟩ := Tensor.exists_entryAt_mirror axis offset foundY
  exact ⟨⟨x', y'⟩, x', againX, y', againY, rfl⟩

variable (axis) in
theorem exists_anchorInPlane_mirror {id : JointId} {point : PlanePoint κ}
    (found : problem.anchorInPlane other id = .ok point) :
    ∃ mirrored, (problem.mirror axis).anchorInPlane other id = .ok mirrored := by
  obtain ⟨joint, known, projected⟩ := bind_eq_ok.mp found
  obtain ⟨mirrored, again⟩ := exists_inPlane_mirror axis projected
  refine ⟨mirrored, ?_⟩
  rw [anchorInPlane, joint_mirror, known]
  exact again

theorem exists_directionInPlane_mirror {id : JointId} {point : PlanePoint κ}
    (found : problem.directionInPlane id axis = .ok point) :
    ∃ mirrored, (problem.mirror axis).directionInPlane id axis = .ok mirrored := by
  simp only [directionInPlane, bind_eq_ok, prismaticDirection_eq_ok] at found ⊢
  obtain ⟨direction, ⟨joint, known, motion⟩, rest⟩ := found
  have slides : (joint.mirror axis).motion = .prismatic (direction.mirror axis) := by
    rw [Joint.mirror, motion, Motion.mirror]
  have again : (problem.mirror axis).chain.joint? id = some (joint.mirror axis) := by
    rw [mirror, Chain.joint?_mirror, known, Option.map_some]
  have same : (direction.mirror axis).component axis = direction.component axis := by
    cases axis <;> rfl
  split at rest
  · obtain ⟨_, _, refused⟩ := bind_eq_ok.mp rest
    exact absurd refused unsupported_ne_ok
  · rename_i admitted
    have sized := Tensor.sized_ofColumn ((direction.mirror axis).toList.map (Expr.number (κ := κ)))
    obtain ⟨x, foundX⟩ := sized.entryAt axis.abscissa.isLt
    obtain ⟨y, foundY⟩ := sized.entryAt axis.ordinate.isLt
    refine ⟨⟨x, y⟩, direction.mirror axis, ⟨_, again, slides⟩, ?_⟩
    rw [same, if_neg admitted, ofAlgebra_eq_ok]
    simp only [PlanePoint.project, Axis.plane_eq, foundX, foundY]
    rfl

variable (axis) in
theorem exists_mismatchInPlane_mirror (built : problem.chain.Built) {constraint : Tensor κ}
    (matched : problem.mismatchInPlane other a b = .ok constraint) :
    ∃ mirrored, (problem.mirror axis).mismatchInPlane other a b = .ok mirrored := by
  obtain ⟨_, whole, _⟩ := bind_eq_ok.mp matched
  simp only [mismatch, bind_eq_ok, ofChain_eq_ok] at whole
  obtain ⟨_, foundA, _, foundB, _⟩ := whole
  have known (id : JointId) (member : id ∈ a ++ b) :
      ∃ joint, (problem.mirror axis).chain.joint? id = some joint := by
    obtain ⟨joint, known⟩ := (List.mem_append.mp member).elim
      (Chain.known_of_positionOf foundA id) (Chain.known_of_positionOf foundB id)
    exact ⟨joint.mirror axis, by rw [mirror, Chain.joint?_mirror, known, Option.map_some]⟩
  have anchors : ∀ joint ∈ (problem.mirror axis).chain.joints, joint.anchor.shape = .vector 3 := by
    intro joint member
    obtain ⟨original, among, rfl⟩ := List.mem_map.mp member
    exact built.anchor_shape original among
  obtain ⟨whole, found⟩ := exists_mismatch anchors (positionOf_eq_ok foundA).1
    (positionOf_eq_ok foundB).1 known
  obtain ⟨shape, length⟩ := mismatch_spatial anchors found
  have sized : whole.Sized 3 1 := ⟨shape, length⟩
  obtain ⟨x, foundX⟩ := sized.entryAt other.abscissa.isLt
  obtain ⟨y, foundY⟩ := sized.entryAt other.ordinate.isLt
  refine ⟨.ofColumn [x, y], ?_⟩
  simp only [mismatchInPlane, Axis.plane_eq, bind_eq_ok, ofAlgebra_eq_ok]
  refine ⟨whole, found, ?_⟩
  simp only [Tensor.select, List.mapM_cons, foundX, foundY]
  rfl

variable (axis) in
theorem exists_fourBar_mirror (built : problem.chain.Built)
    (solved : problem.fourBar posture a b = .ok geometry) :
    ∃ mirrored, (problem.mirror axis).fourBar posture.opposite a b = .ok mirrored := by
  simp only [fourBar, bind_eq_ok, Prod.exists, twoJoints_eq_ok, oneJoint_eq_ok] at solved ⊢
  obtain ⟨crank, coupler, first, rocker, second, other, common, u, v, parted, _, foundP, _, foundQ,
    _, foundR, _, foundS, _, foundT, angle, foundAngle, _, matched, _⟩ := solved
  obtain ⟨p, againP⟩ := exists_anchorInPlane_mirror axis foundP
  obtain ⟨q, againQ⟩ := exists_anchorInPlane_mirror axis foundQ
  obtain ⟨r, againR⟩ := exists_inPlane_mirror axis foundR
  obtain ⟨s, againS⟩ := exists_anchorInPlane_mirror axis foundS
  obtain ⟨t, againT⟩ := exists_inPlane_mirror axis foundT
  obtain ⟨constraint, again⟩ := exists_mismatchInPlane_mirror axis built matched
  exact ⟨_, crank, coupler, first, rocker, second, other, by rwa [commonAxis_mirror], u, v,
    by rwa [partition_mirror], p, againP, q, againQ, r, againR, s, againS, t, againT, angle,
    by rwa [position_mirror], constraint, again, rfl⟩

/-- The rack is mirrored in the plane that the other joints turn in, so that it stays in it. -/
theorem exists_steering_mirror (built : problem.chain.Built)
    (legs : problem.legs = (problem.jointsOf a, problem.jointsOf b))
    {rack tieRod knuckle : Joint κ} {direction : Direction κ}
    (linkage : problem.IsSteering geometry posture axis rack tieRod knuckle direction)
    (solved : problem.steering posture a b = .ok geometry) :
    ∃ mirrored, (problem.mirror axis).steering posture.opposite a b = .ok mirrored := by
  simp only [steering, bind_eq_ok, Prod.exists, noJoint_eq_ok, threeJoints_eq_ok] at solved ⊢
  obtain ⟨_, none, rackId, tieRodId, knuckleId, three, other, shared, _, foundP, u, v, parted, travel,
    foundTravel, _, foundQ, _, foundR, _, foundS, _, foundT, _, foundW, _, matched, _⟩ := solved
  obtain rfl : axis = other := by
    obtain ⟨joint, known, turns⟩ := commonAxis_eq_ok shared tieRodId List.mem_cons_self
    have among : joint ∈ problem.jointsOf b :=
      List.mem_filterMap.mpr ⟨tieRodId, by simp [three], known⟩
    have second : problem.jointsOf b = [rack, tieRod, knuckle] :=
      congrArg Prod.snd (legs.symm.trans linkage.planar.legs)
    exact linkage.planar.turns joint (List.mem_append_right _ (second ▸ among)) other turns
  obtain ⟨p, againP⟩ := exists_directionInPlane_mirror foundP
  obtain ⟨q, againQ⟩ := exists_anchorInPlane_mirror axis foundQ
  obtain ⟨r, againR⟩ := exists_anchorInPlane_mirror axis foundR
  obtain ⟨s, againS⟩ := exists_inPlane_mirror axis foundS
  obtain ⟨t, againT⟩ := exists_anchorInPlane_mirror axis foundT
  obtain ⟨w, againW⟩ := exists_inPlane_mirror axis foundW
  obtain ⟨constraint, again⟩ := exists_mismatchInPlane_mirror axis built matched
  exact ⟨_, ⟨⟩, none, rackId, tieRodId, knuckleId, three, axis, by rwa [commonAxis_mirror], p, againP,
    u, v, by rwa [partition_mirror], travel, by rwa [position_mirror], q, againQ, r, againR, s, againS, t,
    againT, w, againW, constraint, again, rfl⟩

/-! ### Solutions -/

section

variable [Exact κ] {left right : Assignment}

def Agree (problem : Problem κ) (left right : Assignment) : Prop :=
  ∀ offset ∈ problem.offsets, ∀ atom ∈ offset.atoms, left atom = right atom

theorem measured_mirror (measured : problem.Measured geometry axis.inPlane left)
    (agree : problem.Agree left right) {mirrored : Geometry κ}
    (driven : ∀ driver ∈ mirrored.independent, (right driver.atom).isSome) :
    (problem.mirror axis).Measured mirrored axis.inPlane right where
  offsets := by
    intro offset member
    rw [offsets_mirror] at member
    obtain ⟨original, among, rfl⟩ := List.mem_map.mp member
    exact Tensor.defined_mirror (agree original among) (measured.offsets original among)
  driven := driven

theorem shadowIn_mirror (measured : problem.Measured geometry axis.inPlane left)
    (agree : problem.Agree left right) {offset : Tensor κ} (member : offset ∈ problem.offsets) :
    (offset.mirror axis).shadowIn right axis = conj (offset.shadowIn left axis) :=
  Tensor.shadowIn_mirror (agree offset member) (measured.offsets offset member)

theorem shadowIn_frameA_mirror (measured : problem.Measured geometry axis.inPlane left)
    (agree : problem.Agree left right) :
    (problem.mirror axis).request.frameA.position.shadowIn right axis =
      conj (problem.request.frameA.position.shadowIn left axis) :=
  shadowIn_mirror measured agree problem.frameA_mem_offsets

theorem shadowIn_frameB_mirror (measured : problem.Measured geometry axis.inPlane left)
    (agree : problem.Agree left right) :
    (problem.mirror axis).request.frameB.position.shadowIn right axis =
      conj (problem.request.frameB.position.shadowIn left axis) :=
  shadowIn_mirror measured agree problem.frameB_mem_offsets

end

namespace IsFourBar

variable {crank coupler rocker crank' coupler' rocker' : Joint κ} {mirrored : Geometry κ}

theorem joints_mirror (linkage : problem.IsFourBar geometry posture axis crank coupler rocker)
    (reflected : (problem.mirror axis).IsFourBar mirrored posture.opposite other crank' coupler' rocker') :
    (problem.mirror axis).IsFourBar mirrored posture.opposite axis (crank.mirror axis)
      (coupler.mirror axis) (rocker.mirror axis) := by
  have legs := reflected.planar.legs.symm.trans (legs_mirror problem axis)
  simp only [linkage.planar.legs, List.map_cons, List.map_nil, Prod.mk.injEq, List.cons.injEq, and_true]
    at legs
  obtain ⟨⟨rfl, rfl⟩, rfl⟩ := legs
  have turns := reflected.crankTurns
  simp only [Joint.mirror, linkage.crankTurns, Motion.mirror, Motion.revolute.injEq] at turns
  exact turns ▸ reflected

variable [Exact κ] {left right : Assignment}

theorem circles_mirror (linkage : problem.IsFourBar geometry posture axis crank coupler rocker)
    (measured : problem.Measured geometry axis.inPlane left) (agree : problem.Agree left right)
    (opposed : crank.coordinate.valueIn right = -crank.coordinate.valueIn left) :
    couplerCircle (problem.mirror axis) right axis (crank.mirror axis) (coupler.mirror axis) =
        (couplerCircle problem left axis crank coupler).mirror ∧
      rockerCircle (problem.mirror axis) right axis (rocker.mirror axis) =
        (rockerCircle problem left axis rocker).mirror := by
  have anchor (joint : Joint κ) (member : joint ∈ [crank, coupler] ++ [rocker]) :
      (joint.mirror axis).anchor.shadowIn right axis = conj (joint.anchor.shadowIn left axis) :=
    shadowIn_mirror measured agree (linkage.planar.anchor_mem_offsets joint member)
  have turned : (crank.mirror axis).coordinate.valueIn right = -crank.coordinate.valueIn left := opposed
  rw [couplerCircle, couplerCircle, rockerCircle, rockerCircle, anchor crank (by simp),
    anchor coupler (by simp), anchor rocker (by simp), turned, shadowIn_frameA_mirror measured agree,
    shadowIn_frameB_mirror measured agree, heading_neg, Complex.norm_conj, Complex.norm_conj,
    ← map_mul, ← map_add]
  exact ⟨rfl, rfl⟩

/-- When the crank of the mirrored linkage is at the opposite angle, so are the coupler and the
rocker. -/
theorem takes_mirror (linkage : problem.IsFourBar geometry posture axis crank coupler rocker)
    (reflected : (problem.mirror axis).IsFourBar mirrored posture.opposite axis (crank.mirror axis)
      (coupler.mirror axis) (rocker.mirror axis))
    (measured : problem.Measured geometry axis.inPlane left) (agree : problem.Agree left right)
    (driven : (problem.mirror axis).Measured mirrored axis.inPlane right)
    (opposed : crank.coordinate.valueIn right = -crank.coordinate.valueIn left)
    (meets : (couplerCircle problem left axis crank coupler).Meets
      (rockerCircle problem left axis rocker)) :
    ∃ angles, List.Forall₂ (Expr.Takes left) geometry.solution angles ∧
      List.Forall₂ (Expr.TakesAngle right) mirrored.solution (angles.map (-·)) := by
  obtain ⟨first, second⟩ := linkage.circles_mirror measured agree opposed
  have takes := linkage.takes_solution measured meets rfl
  have again := reflected.takes_solution driven (first ▸ second ▸ meets.mirror) rfl
  refine ⟨_, takes, Expr.takesAngle_of_takes again ?_⟩
  have turned : (crank.mirror axis).coordinate.valueIn right = -crank.coordinate.valueIn left := opposed
  rw [first, second, Posture.real_sign_opposite, RealCircle.crossing_mirror, RealCircle.mirror,
    RealCircle.mirror, turned, shadowIn_frameA_mirror measured agree,
    shadowIn_frameB_mirror measured agree]
  refine .cons ?_ (.cons ?_ .nil)
  all_goals
    simp only [← map_sub, Real.Angle.coe_sub, Real.Angle.coe_neg, Complex.arg_conj_coe_angle]
    abel

end IsFourBar

namespace IsSteering

variable {rack tieRod knuckle rack' tieRod' knuckle' : Joint κ} {direction direction' : Direction κ}
  {mirrored : Geometry κ}

theorem joints_mirror
    (linkage : problem.IsSteering geometry posture axis rack tieRod knuckle direction)
    (reflected : (problem.mirror axis).IsSteering mirrored posture.opposite other rack' tieRod' knuckle'
      direction') :
    (problem.mirror axis).IsSteering mirrored posture.opposite axis (rack.mirror axis)
      (tieRod.mirror axis) (knuckle.mirror axis) (direction.mirror axis) := by
  have legs := reflected.planar.legs.symm.trans (legs_mirror problem axis)
  simp only [linkage.planar.legs, List.map_cons, List.map_nil, Prod.mk.injEq, List.cons.injEq, and_true,
    true_and] at legs
  obtain ⟨rfl, rfl, rfl⟩ := legs
  have turns := reflected.tieRodTurns
  have slides := reflected.rackSlides
  simp only [Joint.mirror, linkage.tieRodTurns, Motion.mirror, Motion.revolute.injEq] at turns
  simp only [Joint.mirror, linkage.rackSlides, Motion.mirror, Motion.prismatic.injEq] at slides
  obtain rfl := turns
  obtain rfl := slides
  exact reflected

variable [Exact κ] {left right : Assignment}

theorem circles_mirror
    (linkage : problem.IsSteering geometry posture axis rack tieRod knuckle direction)
    (measured : problem.Measured geometry axis.inPlane left) (agree : problem.Agree left right)
    (kept : rack.coordinate.valueIn right = rack.coordinate.valueIn left) :
    tieRodCircle right axis (rack.mirror axis) (tieRod.mirror axis) (knuckle.mirror axis)
        (direction.mirror axis) = (tieRodCircle left axis rack tieRod knuckle direction).mirror ∧
      knuckleCircle (problem.mirror axis) right axis = (knuckleCircle problem left axis).mirror := by
  have anchor (joint : Joint κ) (member : joint ∈ [] ++ [rack, tieRod, knuckle]) :
      (joint.mirror axis).anchor.shadowIn right axis = conj (joint.anchor.shadowIn left axis) :=
    shadowIn_mirror measured agree (linkage.planar.anchor_mem_offsets joint member)
  have slid : (rack.mirror axis).coordinate.valueIn right = rack.coordinate.valueIn left := kept
  have along : conj (axis.shadow direction.vector * rack.coordinate.valueIn left) =
      conj (axis.shadow direction.vector) * rack.coordinate.valueIn left := by
    rw [map_mul, Complex.conj_ofReal]
  rw [tieRodCircle, tieRodCircle, knuckleCircle, knuckleCircle, anchor rack (by simp),
    anchor tieRod (by simp), anchor knuckle (by simp), slid, shadowIn_frameA_mirror measured agree,
    shadowIn_frameB_mirror measured agree, Direction.shadow_mirror, Complex.norm_conj,
    Complex.norm_conj, ← along, ← map_add, ← map_add]
  exact ⟨rfl, rfl⟩

/-- When the rack of the mirrored linkage is at the same place, the tie rod and the knuckle are at
the opposite angles. -/
theorem takes_mirror
    (linkage : problem.IsSteering geometry posture axis rack tieRod knuckle direction)
    (reflected : (problem.mirror axis).IsSteering mirrored posture.opposite axis (rack.mirror axis)
      (tieRod.mirror axis) (knuckle.mirror axis) (direction.mirror axis))
    (measured : problem.Measured geometry axis.inPlane left) (agree : problem.Agree left right)
    (driven : (problem.mirror axis).Measured mirrored axis.inPlane right)
    (kept : rack.coordinate.valueIn right = rack.coordinate.valueIn left)
    (meets : (tieRodCircle left axis rack tieRod knuckle direction).Meets
      (knuckleCircle problem left axis)) :
    ∃ angles, List.Forall₂ (Expr.Takes left) geometry.solution angles ∧
      List.Forall₂ (Expr.TakesAngle right) mirrored.solution (angles.map (-·)) := by
  obtain ⟨first, second⟩ := linkage.circles_mirror measured agree kept
  have takes := linkage.takes_solution measured meets rfl
  have again := reflected.takes_solution driven (first ▸ second ▸ meets.mirror) rfl
  refine ⟨_, takes, Expr.takesAngle_of_takes again ?_⟩
  have tieRodLink : (knuckle.mirror axis).anchor.shadowIn right axis = _ :=
    shadowIn_mirror measured agree (linkage.planar.anchor_mem_offsets knuckle (by simp))
  rw [first, second, Posture.real_sign_opposite, RealCircle.crossing_mirror, RealCircle.mirror,
    RealCircle.mirror, tieRodLink, shadowIn_frameB_mirror measured agree]
  refine .cons ?_ (.cons ?_ .nil)
  all_goals
    simp only [← map_sub, Real.Angle.coe_sub, Real.Angle.coe_neg, Complex.arg_conj_coe_angle]
    abel

end IsSteering

/-! ### Both kinds -/

section

variable [Exact κ] {assignment : Assignment} {first second : RealCircle}

/-- Where a mirrored linkage is driven to: what turns is turned the other way. -/
noncomputable def opposed (problem : Problem κ) (geometry : Geometry κ) (assignment : Assignment) :
    Assignment :=
  match problem.request.topology with
  | .fourBar _ => assignment.opposing geometry.independent
  | _ => assignment

omit [Exact κ] in
theorem agree_opposing {coordinates : List Coordinate}
    (rigid : ∀ offset ∈ problem.offsets, ∀ coordinate ∈ coordinates, coordinate.atom ∉ offset.atoms) :
    problem.Agree assignment (assignment.opposing coordinates) := by
  intro offset member atom reads
  refine (Assignment.opposing_of_not_mem fun among => ?_).symm
  obtain ⟨coordinate, present, rfl⟩ := List.mem_map.mp among
  exact rigid offset member coordinate present reads

/-- A four-bar or a steering linkage that is accepted is accepted when it is mirrored in its plane and
asked for the other posture. The mirrored crank is turned the other way, the mirrored rack is at
the same place. Then, wherever the circles of the linkage meet, the mirrored linkage is solved by
the opposite angles. -/
theorem solution_mirror (built : problem.chain.Built) (solved : problem.solve = .ok geometry)
    (rigid : ∀ offset ∈ problem.offsets, ∀ coordinate ∈ geometry.independent ++ geometry.dependent,
      coordinate.atom ∉ offset.atoms)
    (circular : (∃ posture, problem.request.topology = .fourBar posture) ∨
      ∃ posture, problem.request.topology = .steering posture) :
    ∃ axis mirrored, problem.axis? = some axis ∧ (problem.mirror axis).solve = .ok mirrored ∧
      mirrored.independent = geometry.independent ∧ mirrored.dependent = geometry.dependent ∧
      ∀ assignment first second, problem.Measured geometry axis.inPlane assignment →
        problem.circles? assignment axis = some (first, second) → first.Meets second →
          ∃ angles, List.Forall₂ (Expr.Takes assignment) geometry.solution angles ∧
            List.Forall₂ (Expr.TakesAngle (problem.opposed geometry assignment)) mirrored.solution
              (angles.map (-·)) := by
  obtain ⟨a, b, branched, legs⟩ := exists_branches solved
  have again (axis : Axis) := (branches_mirror problem axis).trans branched
  have sides (axis : Axis) : (problem.mirror axis).legs =
      ((problem.mirror axis).jointsOf a, (problem.mirror axis).jointsOf b) := by
    rw [legs_mirror, legs, jointsOf_mirror, jointsOf_mirror]
  rcases circular with ⟨posture, topology⟩ | ⟨posture, topology⟩
  · rw [(solve_fourBar branched topology).1] at solved
    obtain ⟨axis, crank, coupler, rocker, linkage⟩ := fourBar_eq_ok legs solved
    obtain ⟨mirrored, accepted⟩ := exists_fourBar_mirror axis built solved
    obtain ⟨_, _, _, _, reflected⟩ := fourBar_eq_ok (sides axis) accepted
    have reflected := linkage.joints_mirror reflected
    have driver : mirrored.independent = geometry.independent :=
      reflected.planar.independent.trans linkage.planar.independent.symm
    refine ⟨axis, mirrored, linkage.planar.axis?_eq (by simp) linkage.crankTurns, ?_, driver,
      reflected.planar.dependent.trans linkage.planar.dependent.symm, ?_⟩
    · rw [(solve_fourBar (again axis) (congrArg Topology.opposite topology)).1, accepted]
    · intro assignment first second measured circles meets
      simp only [circles?, topology, linkage.planar.legs, Option.some.injEq, Prod.mk.injEq] at circles
      obtain ⟨rfl, rfl⟩ := circles
      have agree : problem.Agree assignment (assignment.opposing geometry.independent) :=
        agree_opposing fun offset member driver among =>
          rigid offset member driver (List.mem_append_left _ among)
      have known : crank.coordinate ∈ geometry.independent := by simp [linkage.planar.independent]
      rw [opposed, topology]
      refine linkage.takes_mirror reflected measured agree (measured_mirror measured agree ?_)
        (Assignment.valueIn_opposing known) meets
      rw [driver]
      intro driver member
      rw [Assignment.opposing_of_mem member, Option.isSome_map]
      exact measured.driven driver member
  · rw [(solve_steering branched topology).1] at solved
    obtain ⟨axis, rack, tieRod, knuckle, direction, linkage⟩ := steering_eq_ok legs solved
    obtain ⟨mirrored, accepted⟩ := exists_steering_mirror built legs linkage solved
    obtain ⟨_, _, _, _, _, reflected⟩ := steering_eq_ok (sides axis) accepted
    have reflected := linkage.joints_mirror reflected
    have driver : mirrored.independent = geometry.independent :=
      reflected.planar.independent.trans linkage.planar.independent.symm
    refine ⟨axis, mirrored, linkage.planar.axis?_eq (by simp) linkage.tieRodTurns, ?_, driver,
      reflected.planar.dependent.trans linkage.planar.dependent.symm, ?_⟩
    · rw [(solve_steering (again axis) (congrArg Topology.opposite topology)).1, accepted]
    · intro assignment first second measured circles meets
      simp only [circles?, topology, linkage.planar.legs, linkage.rackSlides, Option.some.injEq,
        Prod.mk.injEq] at circles
      obtain ⟨rfl, rfl⟩ := circles
      have agree : problem.Agree assignment assignment := fun _ _ _ _ => rfl
      rw [opposed, topology]
      exact linkage.takes_mirror reflected measured agree
        (measured_mirror measured agree (driver ▸ measured.driven)) rfl meets

end

/-! ### A leaning linkage -/

namespace Leaning

open Sample

noncomputable def point (x y : ℝ) : Tensor RealNumber := .ofColumn [.num ⟨x⟩, .num ⟨y⟩, .zero]

noncomputable def crank : Joint RealNumber := ⟨"crank", .revolute .z, coordinate 1, none, point 0 0⟩

noncomputable def coupler : Joint RealNumber :=
  ⟨"coupler", .revolute .z, coordinate 2, some ⟨0⟩, point 1 0⟩

noncomputable def rocker : Joint RealNumber :=
  ⟨"rocker", .revolute .z, coordinate 3, none, point 1 1⟩

/-- Three links of length one. The second pivot is beside the end of the crank when that has made a
quarter of a turn. -/
noncomputable def linkage : Problem RealNumber where
  chain := ⟨[crank, coupler, rocker]⟩
  request := ⟨"leaning", .fourBar .positive, ⟨"a", some ⟨1⟩, point 0 1⟩, ⟨"b", some ⟨2⟩, point 1 0⟩,
    [⟨0⟩], [⟨1⟩, ⟨2⟩]⟩

theorem built : linkage.chain.Built := by
  have first : (Chain.empty : Chain RealNumber).add crank = .ok (⟨0⟩, ⟨[crank]⟩) := rfl
  have second : (⟨[crank]⟩ : Chain RealNumber).add coupler = .ok (⟨1⟩, ⟨[crank, coupler]⟩) := rfl
  have third : (⟨[crank, coupler]⟩ : Chain RealNumber).add rocker =
      .ok (⟨2⟩, ⟨[crank, coupler, rocker]⟩) := rfl
  exact ((Chain.Built.empty.add first).add second).add third

theorem solvable : ∃ constraint solution, linkage.solve =
    .ok ⟨[coordinate 1], [coordinate 2, coordinate 3], constraint, solution⟩ := ⟨_, _, rfl⟩

noncomputable def quarter : Assignment := fun _ => some (Real.pi / (1 + 1))

theorem takes_point (x y : ℝ) : (PlanePoint.ofOffset .z (point x y)).Takes quarter ⟨x, y⟩ :=
  ⟨(Expr.takes_num _ _).mpr rfl, (Expr.takes_num _ _).mpr rfl⟩

theorem shadowIn_point (x y : ℝ) : (point x y).shadowIn quarter .z = ⟨x, y⟩ :=
  Complex.ext (takes_point x y).x.valueIn_eq (takes_point x y).y.valueIn_eq

theorem exists_point {offset : Tensor RealNumber} (member : offset ∈ linkage.offsets) :
    ∃ x y, offset = point x y := by
  have listed : offset ∈ [point 0 0, point 1 0, point 1 1, point 0 1, point 1 0] := member
  simp only [List.mem_cons, List.not_mem_nil, or_false] at listed
  rcases listed with rfl | rfl | rfl | rfl | rfl <;> exact ⟨_, _, rfl⟩

theorem rigid (offset : Tensor RealNumber) (member : offset ∈ linkage.offsets)
    (coordinate : Coordinate) : coordinate.atom ∉ offset.atoms := by
  obtain ⟨x, y, rfl⟩ := exists_point member
  simp [Tensor.mem_atoms, point, Tensor.ofColumn, Expr.zero, Expr.occurrences]

theorem measured (geometry : Geometry RealNumber) :
    linkage.Measured geometry Axis.z.inPlane quarter where
  offsets := by
    intro offset member
    obtain ⟨x, y, rfl⟩ := exists_point member
    rintro index (rfl | rfl)
    · exact (takes_point x y).x.defined
    · exact (takes_point x y).y.defined
  driven := fun _ _ => rfl

theorem circles : linkage.circles? quarter .z = some (⟨⟨0, 1⟩, 1⟩, ⟨⟨1, 1⟩, 1⟩) := by
  have turned : heading (Real.pi / 2) = ⟨0, 1⟩ := by
    rw [heading_eq, Real.cos_pi_div_two, Real.sin_pi_div_two]
  have up : ‖(⟨0, 1⟩ : ℂ)‖ = 1 := Complex.norm_I
  have ahead : ‖(⟨1, 0⟩ : ℂ)‖ = 1 := norm_one
  have near : IsFourBar.couplerCircle linkage quarter .z crank coupler = ⟨⟨0, 1⟩, 1⟩ := by
    rw [IsFourBar.couplerCircle, RealCircle.mk.injEq]
    refine ⟨?_, (congrArg _ (shadowIn_point 0 1)).trans up⟩
    rw [show crank.anchor = point 0 0 from rfl, show coupler.anchor = point 1 0 from rfl, shadowIn_point,
      shadowIn_point, show crank.coordinate.valueIn quarter = Real.pi / (1 + 1) from rfl,
      one_add_one_eq_two, turned]
    apply Complex.ext <;> simp
  have far : IsFourBar.rockerCircle linkage quarter .z rocker = ⟨⟨1, 1⟩, 1⟩ := by
    rw [IsFourBar.rockerCircle, RealCircle.mk.injEq]
    exact ⟨shadowIn_point 1 1, (congrArg _ (shadowIn_point 1 0)).trans ahead⟩
  rw [← near, ← far]
  rfl

theorem meets : RealCircle.Meets ⟨⟨0, 1⟩, 1⟩ ⟨⟨1, 1⟩, 1⟩ := by
  have apart : (⟨1, 1⟩ : ℂ) - ⟨0, 1⟩ = 1 := by apply Complex.ext <;> simp
  constructor
  · exact fun same => zero_ne_one (congrArg Complex.re same)
  · norm_num [RealCircle.radicand, RealCircle.along, RealCircle.distance, apart]

end Leaning

/-- The leaning linkage leans to the other side when it is mirrored and its crank has made a quarter
of a turn backwards. -/
theorem leaning_mirrored : ∃ geometry mirrored, Leaning.linkage.solve = .ok geometry ∧
    (Leaning.linkage.mirror .z).solve = .ok mirrored ∧ ∃ angles,
      List.Forall₂ (Expr.Takes Leaning.quarter) geometry.solution angles ∧
      List.Forall₂ (Expr.TakesAngle (Leaning.quarter.opposing [Sample.coordinate 1])) mirrored.solution
        (angles.map (-·)) := by
  obtain ⟨constraint, solution, solved⟩ := Leaning.solvable
  obtain ⟨axis, mirrored, plane, accepted, _, _, each⟩ := solution_mirror Leaning.built solved
    (fun offset member coordinate _ => Leaning.rigid offset member coordinate) (.inl ⟨_, rfl⟩)
  obtain rfl : .z = axis := Option.some.inj plane
  exact ⟨_, mirrored, solved, accepted,
    each Leaning.quarter _ _ (Leaning.measured _) Leaning.circles Leaning.meets⟩

end Problem

end Loop

end Mechanism
