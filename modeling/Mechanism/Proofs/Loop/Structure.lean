import Mechanism.Loop.Solution
import Mechanism.Proofs.Expr.Substitution
import Mechanism.Proofs.Plane
import Mechanism.Proofs.Simplifier

/-!
What it says about a loop that it is accepted: the joints on its branches, their motions, and the
constraint as a difference of two positions.
-/

namespace Mechanism

variable {κ : Type} [Scalar κ]

namespace Loop

@[simp] theorem ofChain_eq_ok {α : Type} {result : Except ChainError α} {value : α} :
    (ofChain result : Answer κ α) = .ok value ↔ result = .ok value := by
  cases result <;> simp [ofChain]

@[simp] theorem ofAlgebra_eq_ok {α : Type} {result : Except AlgebraError α} {value : α} :
    (ofAlgebra result : Answer κ α) = .ok value ↔ result = .ok value := by
  cases result <;> simp [ofAlgebra]

namespace Problem

variable {problem : Problem κ}

@[simp] theorem unsupported_ne_ok {α : Type} {reason : Misfit κ} {value : α} :
    problem.unsupported reason ≠ .ok value := nofun

theorem check_eq_ok {refused : Prop} [Decidable refused] {α β : Type} {reason : Misfit κ}
    {rest : α → Answer κ β} {next : Answer κ β} {value : β} :
    (if refused then problem.unsupported reason >>= rest else next) = .ok value ↔
      ¬ refused ∧ next = .ok value := by
  split
  · simp [unsupported, bind, Except.bind, *]
  · simp [*]

/-- The joints of a branch. -/
def jointsOf (problem : Problem κ) (ids : List JointId) : List (Joint κ) :=
  ids.filterMap problem.chain.joint?

/-- The joints above the two frames, below the base that these share. -/
def legs (problem : Problem κ) : List (Joint κ) × List (Joint κ) :=
  match problem.chain.branches problem.request.frameA.body problem.request.frameB.body with
  | .ok (a, b) => (problem.jointsOf a, problem.jointsOf b)
  | .error _ => ([], [])

/-- The axis of the first joint that turns. -/
def axis? (problem : Problem κ) : Option Axis :=
  (problem.legs.1 ++ problem.legs.2).findSome? fun joint =>
    match joint.motion with
    | .revolute axis => some axis
    | .prismatic _ => none

theorem exists_branches {geometry : Geometry κ} (solved : problem.solve = .ok geometry) :
    ∃ a b, problem.chain.branches problem.request.frameA.body problem.request.frameB.body =
      .ok (a, b) ∧ problem.legs = (problem.jointsOf a, problem.jointsOf b) := by
  simp only [solve, bind_eq_ok, ofChain_eq_ok, Prod.exists] at solved
  obtain ⟨a, b, branched, _⟩ := solved
  exact ⟨a, b, branched, by simp only [legs, branched]⟩

theorem mem_joints_of_mem_jointsOf {ids : List JointId} {joint : Joint κ}
    (member : joint ∈ problem.jointsOf ids) : joint ∈ problem.chain.joints := by
  obtain ⟨id, _, found⟩ := List.mem_filterMap.mp member
  exact List.mem_of_getElem? found

theorem mem_joints_of_mem_legs (problem : Problem κ) {joint : Joint κ}
    (member : joint ∈ problem.legs.1 ∨ joint ∈ problem.legs.2) : joint ∈ problem.chain.joints := by
  unfold legs at member
  split at member
  · exact member.elim mem_joints_of_mem_jointsOf mem_joints_of_mem_jointsOf
  · simp at member

/-- All offsets that the positions of the two frames depend on. -/
def offsets (problem : Problem κ) : List (Tensor κ) :=
  (problem.legs.1 ++ problem.legs.2).map Joint.anchor ++
    [problem.request.frameA.position, problem.request.frameB.position]

@[simp] theorem joint_eq_ok {id : JointId} {joint : Joint κ} :
    problem.joint id = .ok joint ↔ problem.chain.joint? id = some joint := by
  unfold Problem.joint Chain.joint
  cases problem.chain.joint? id <;> simp

theorem jointsOf_eq {ids : List JointId} {joints : List (Joint κ)}
    (found : ids.mapM problem.chain.joint = .ok joints) : problem.jointsOf ids = joints := by
  have each := Simplifier.mapM_eq_ok found
  clear found
  induction each with
  | nil => rfl
  | cons head _ ih =>
      have known := joint_eq_ok.mp (ofChain_eq_ok.mpr head)
      rw [jointsOf, List.filterMap_cons, known]
      exact congrArg _ ih

theorem noJoint_eq_ok {branch : List JointId} {frame : Frame κ} {done : Unit} :
    problem.noJoint branch frame = .ok done ↔ branch = [] := by
  rcases branch with _ | ⟨_, _⟩ <;> simp [noJoint]

theorem oneJoint_eq_ok {branch : List JointId} {frame : Frame κ} {first : JointId} :
    problem.oneJoint branch frame = .ok first ↔ branch = [first] := by
  rcases branch with _ | ⟨_, _ | ⟨_, _⟩⟩ <;> simp [oneJoint]

theorem twoJoints_eq_ok {branch : List JointId} {frame : Frame κ} {first second : JointId} :
    problem.twoJoints branch frame = .ok (first, second) ↔ branch = [first, second] := by
  rcases branch with _ | ⟨_, _ | ⟨_, _ | ⟨_, _⟩⟩⟩ <;> simp [twoJoints]

theorem threeJoints_eq_ok {branch : List JointId} {frame : Frame κ}
    {first second third : JointId} :
    problem.threeJoints branch frame = .ok (first, second, third) ↔
      branch = [first, second, third] := by
  rcases branch with _ | ⟨_, _ | ⟨_, _ | ⟨_, _ | ⟨_, _⟩⟩⟩⟩ <;> simp [threeJoints]

theorem revoluteAxis_eq_ok {id : JointId} {axis : Axis} :
    problem.revoluteAxis id = .ok axis ↔
      ∃ joint, problem.chain.joint? id = some joint ∧ joint.motion = .revolute axis := by
  simp only [revoluteAxis, bind_eq_ok, joint_eq_ok]
  constructor
  · rintro ⟨joint, known, rest⟩
    split at rest
    · rename_i other motion
      cases rest
      exact ⟨joint, known, motion⟩
    · exact absurd rest unsupported_ne_ok
  · rintro ⟨joint, known, motion⟩
    exact ⟨joint, known, by rw [motion]; rfl⟩

theorem prismaticDirection_eq_ok {id : JointId} {direction : Direction κ} :
    problem.prismaticDirection id = .ok direction ↔
      ∃ joint, problem.chain.joint? id = some joint ∧ joint.motion = .prismatic direction := by
  simp only [prismaticDirection, bind_eq_ok, joint_eq_ok]
  constructor
  · rintro ⟨joint, known, rest⟩
    split at rest
    · rename_i other motion
      cases rest
      exact ⟨joint, known, motion⟩
    · exact absurd rest unsupported_ne_ok
  · rintro ⟨joint, known, motion⟩
    exact ⟨joint, known, by rw [motion]; rfl⟩

theorem commonAxis_eq_ok {ids : List JointId} {axis : Axis}
    (common : problem.commonAxis ids = .ok axis) :
    ∀ id ∈ ids, ∃ joint, problem.chain.joint? id = some joint ∧ joint.motion = .revolute axis := by
  simp only [commonAxis, bind_eq_ok] at common
  obtain ⟨axes, found, rest⟩ := common
  have each := Simplifier.mapM_eq_ok found
  split at rest
  · rename_i other only
    cases rest
    have same : ∀ found ∈ axes, found = axis := by
      intro found member
      have among := Grouping.mem_distinct.mpr member
      rw [only] at among
      exact List.mem_singleton.mp among
    intro id member
    obtain ⟨position, bound, rfl⟩ := List.getElem_of_mem member
    have inside : position < axes.length := each.length_eq ▸ bound
    have turns := each.get bound inside
    simp only [List.get_eq_getElem, same _ (List.getElem_mem inside)] at turns
    exact revoluteAxis_eq_ok.mp turns
  · exact absurd rest unsupported_ne_ok

theorem directionInPlane_eq_ok {id : JointId} {axis : Axis} {point : PlanePoint κ}
    (found : problem.directionInPlane id axis = .ok point) :
    ∃ joint direction, problem.chain.joint? id = some joint ∧
      joint.motion = .prismatic direction ∧
        point = PlanePoint.ofOffset axis (.ofColumn (direction.toList.map Expr.number)) := by
  simp only [directionInPlane, bind_eq_ok, prismaticDirection_eq_ok] at found
  obtain ⟨direction, ⟨joint, known, motion⟩, rest⟩ := found
  split at rest
  · obtain ⟨_, _, refused⟩ := bind_eq_ok.mp rest
    exact absurd refused unsupported_ne_ok
  · exact ⟨joint, direction, known, motion, PlanePoint.project_eq_ok (ofAlgebra_eq_ok.mp rest)⟩

theorem coordinates_eq_ok {ids : List JointId} {coordinates : List Coordinate}
    (found : problem.coordinates ids = .ok coordinates) :
    coordinates = (problem.jointsOf ids).map Joint.coordinate := by
  have each := Simplifier.mapM_eq_ok found
  clear found
  induction each with
  | nil => rfl
  | cons head _ ih =>
      obtain ⟨joint, known, same⟩ := bind_eq_ok.mp head
      cases same
      rw [jointsOf, List.filterMap_cons, joint_eq_ok.mp known, ih]
      rfl

theorem partition_eq_ok {independent dependent : List JointId} {u v : List Coordinate}
    (parted : problem.partition independent dependent = .ok (u, v)) :
    u = (problem.jointsOf independent).map Joint.coordinate ∧
      v = (problem.jointsOf dependent).map Joint.coordinate := by
  unfold partition at parted
  simp only at parted
  split at parted
  · exact absurd parted unsupported_ne_ok
  · split at parted
    · exact absurd parted unsupported_ne_ok
    · simp only [bind_eq_ok] at parted
      obtain ⟨u, first, v, second, same⟩ := parted
      cases same
      exact ⟨coordinates_eq_ok first, coordinates_eq_ok second⟩

theorem inPlane_eq_ok {axis : Axis} {offset : Tensor κ} {point : PlanePoint κ}
    (found : inPlane axis offset = .ok point) : point = .ofOffset axis offset :=
  PlanePoint.project_eq_ok (ofAlgebra_eq_ok.mp found)

theorem anchorInPlane_eq_ok {axis : Axis} {id : JointId} {joint : Joint κ}
    {point : PlanePoint κ} (known : problem.chain.joint? id = some joint)
    (found : problem.anchorInPlane axis id = .ok point) : point = .ofOffset axis joint.anchor := by
  obtain ⟨other, again, projected⟩ := bind_eq_ok.mp found
  rw [joint_eq_ok, known] at again
  cases again
  exact inPlane_eq_ok projected

theorem position_eq_ok {id : JointId} {joint : Joint κ} {expr : Expr κ}
    (known : problem.chain.joint? id = some joint) (found : problem.position id = .ok expr) :
    expr = joint.coordinate.positionExpr := by
  obtain ⟨other, again, same⟩ := bind_eq_ok.mp found
  rw [joint_eq_ok, known] at again
  cases again
  cases same
  rfl

/-- The expressions for the position of a frame at the end of a branch. -/
def located (joints : List (Joint κ)) (frame : Frame κ) : Tensor κ :=
  (joints.foldl Pose.moveBy Pose.start).locate frame.position

theorem positionOf_eq_ok {branch : List JointId} {frame : Frame κ} {position : Tensor κ}
    (found : problem.chain.positionOf branch frame = .ok position) :
    frame.position.shape = .vector 3 ∧ position = located (problem.jointsOf branch) frame := by
  simp only [Chain.positionOf, bind_eq_ok] at found
  obtain ⟨_, checked, joints, known, same⟩ := found
  cases same
  exact ⟨checkOffset_eq_ok.mp checked, by rw [jointsOf_eq known, located]⟩

variable [Exact κ]

/-- Where a frame is at the end of a branch. -/
noncomputable def locate (assignment : Assignment) (joints : List (Joint κ)) (frame : Frame κ) :
    Fin 3 → ℝ :=
  (Placement.behind assignment joints).locate (frame.position.vectorIn assignment)

variable {seen : Set (Fin 3)} {assignment : Assignment}

theorem shadow_locate {axis : Axis} {joints : List (Joint κ)} {origin : ℂ} {angle : ℝ}
    (planar : (Placement.behind assignment joints).Planar axis origin angle) (frame : Frame κ) :
    axis.shadow (locate assignment joints frame) =
      origin + heading angle * frame.position.shadowIn assignment axis :=
  planar.locate _

/-- What is seen of a frame, and of the joints above it, has a value. -/
structure Visible (seen : Set (Fin 3)) (assignment : Assignment) (joints : List (Joint κ))
    (frame : Frame κ) : Prop where
  joints : ∀ joint ∈ joints, joint.Visible seen assignment
  frame : ∀ index ∈ seen, (frame.position.component index).Defined assignment

theorem length_located {joints : List (Joint κ)} {frame : Frame κ}
    (visible : ∀ joint ∈ joints, joint.Visible seen assignment)
    (shape : frame.position.shape = .vector 3) : (located joints frame).entries.length = 3 :=
  have sees := Pose.sees_behind visible
  Pose.length_locate sees.position_length sees.rotation_shape shape

/-- The mismatch has three components, and those that are seen are the difference of the positions
of the two frames. -/
theorem takes_mismatch {a b : List JointId} {whole : Tensor κ}
    (found : problem.mismatch a b = .ok whole)
    (first : Visible seen assignment (problem.jointsOf a) problem.request.frameA)
    (second : Visible seen assignment (problem.jointsOf b) problem.request.frameB) :
    whole.entries.length = 3 ∧ ∀ row ∈ seen, (whole.component row).Takes assignment
      (locate assignment (problem.jointsOf a) problem.request.frameA row -
        locate assignment (problem.jointsOf b) problem.request.frameB row) := by
  simp only [mismatch, bind_eq_ok, ofChain_eq_ok, ofAlgebra_eq_ok] at found
  obtain ⟨left, foundLeft, right, foundRight, subtracted⟩ := found
  obtain ⟨shapeLeft, rfl⟩ := positionOf_eq_ok foundLeft
  obtain ⟨shapeRight, rfl⟩ := positionOf_eq_ok foundRight
  have lengthLeft := length_located first.joints shapeLeft
  have lengthRight := length_located second.joints shapeRight
  constructor
  · rw [Tensor.length_sub subtracted, lengthLeft, lengthRight, min_self]
  · intro row member
    rw [Tensor.component_sub subtracted (by rw [lengthLeft]; exact row.isLt)
      (by rw [lengthRight]; exact row.isLt)]
    exact Expr.takes_minus
      ((Pose.sees_behind first.joints).locate shapeLeft first.frame row member)
      ((Pose.sees_behind second.joints).locate shapeRight second.frame row member)

theorem takes_mismatchInPlane {axis : Axis} {a b : List JointId} {constraint : Tensor κ}
    (found : problem.mismatchInPlane axis a b = .ok constraint)
    (first : Visible axis.inPlane assignment (problem.jointsOf a) problem.request.frameA)
    (second : Visible axis.inPlane assignment (problem.jointsOf b) problem.request.frameB) :
    ∃ point : PlanePoint κ, constraint.entries = [point.x, point.y] ∧
      point.Takes assignment
        (axis.shadow (locate assignment (problem.jointsOf a) problem.request.frameA) -
          axis.shadow (locate assignment (problem.jointsOf b) problem.request.frameB)) := by
  simp only [mismatchInPlane, axis.plane_eq, bind_eq_ok, ofAlgebra_eq_ok] at found
  obtain ⟨whole, matched, selected⟩ := found
  obtain ⟨-, takes⟩ := takes_mismatch matched first second
  simp only [Tensor.select, bind_eq_ok, List.mapM_cons, List.mapM_nil] at selected
  obtain ⟨_, ⟨x, foundX, _, ⟨y, foundY, _, nil, rest⟩, entries⟩, same⟩ := selected
  cases nil
  cases rest
  cases entries
  cases same
  have real := takes _ axis.abscissa_inPlane
  have imaginary := takes _ axis.ordinate_inPlane
  rw [Tensor.component_eq_of_entryAt foundX] at real
  rw [Tensor.component_eq_of_entryAt foundY] at imaginary
  exact ⟨⟨x, y⟩, rfl, real, imaginary⟩

end Problem

end Loop

end Mechanism
