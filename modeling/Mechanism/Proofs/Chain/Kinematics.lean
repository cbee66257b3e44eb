import Mathlib.LinearAlgebra.Matrix.Notation
import Mechanism.Chain.Basic
import Mechanism.Chain.Kinematics
import Mechanism.Proofs.Tensor.Algebra

/-!
Where the frames of a chain are in space. A frame has a real position and a real rotation, which
the joints above it move one after the other; the expressions that a chain is located by take the
values of these.

It may be that only some of the components matter, and that only these are defined. They are then
said to be seen, and it is asked that the rotations mix no other component into them.

The branches to two bodies of a chain have no joint twice on them.
-/

namespace Mechanism

namespace Chain

variable {κ : Type} [Scalar κ] {chain : Chain κ} {body : Option JointId} {id : JointId}
  {ids others : List JointId}

/-- The joints are those from a body up to the root. -/
inductive Ascent (chain : Chain κ) : Option JointId → List JointId → Prop where
  | root : Ascent chain none []
  | step {id : JointId} {joint : Joint κ} {rest : List JointId}
      (known : chain.joint? id = some joint) (above : Ascent chain joint.parent rest) :
      Ascent chain (some id) (id :: rest)

theorem joint_eq_ok {joint : Joint κ} : chain.joint id = .ok joint ↔ chain.joint? id = some joint := by
  unfold Chain.joint
  cases chain.joint? id <;> simp

theorem ascend_eq_ok {fuel : Nat} (found : chain.ascend fuel body = .ok ids) :
    chain.Ascent body ids := by
  induction fuel generalizing body ids with
  | zero =>
      cases body with
      | none =>
          cases found
          exact .root
      | some id => cases found
  | succ fuel ih =>
      cases body with
      | none =>
          cases found
          exact .root
      | some id =>
          simp only [ascend, bind_eq_ok] at found
          obtain ⟨joint, known, rest, above, same⟩ := found
          cases same
          exact .step (joint_eq_ok.mp known) (ih above)

theorem Ascent.unique (first : chain.Ascent body ids) (second : chain.Ascent body others) :
    ids = others := by
  induction first generalizing others with
  | root =>
      cases second
      rfl
  | step known _ ih =>
      cases second with
      | step again above =>
          rw [known, Option.some.injEq] at again
          subst again
          rw [ih above]

theorem Ascent.from_joint {below above : List JointId}
    (ascent : chain.Ascent body (below ++ id :: above)) : chain.Ascent (some id) (id :: above) := by
  induction below generalizing body with
  | nil =>
      cases ascent with
      | step known above => exact .step known above
  | cons head tail ih =>
      cases ascent with
      | step _ rest => exact ih rest

theorem Ascent.nodup (ascent : chain.Ascent body ids) : ids.Nodup := by
  induction ascent with
  | root => exact List.nodup_nil
  | @step id _ rest known above ih =>
      refine List.nodup_cons.mpr ⟨fun member => ?_, ih⟩
      obtain ⟨below, higher, split⟩ := List.append_of_mem member
      -- an ascent that came back to a joint would be longer than itself
      have again : chain.Ascent (some id) (id :: higher) := Ascent.from_joint (split ▸ above)
      have same := congrArg List.length (again.unique (.step known above))
      rw [split] at same
      simp only [List.length_cons, List.length_append] at same
      omega

theorem dropShared_eq (first second : List JointId) :
    ∃ shared, first = shared ++ (dropShared first second).1 ∧
      second = shared ++ (dropShared first second).2 ∧
        ∀ one other, (dropShared first second).1.head? = some one →
          (dropShared first second).2.head? = some other → one ≠ other := by
  fun_induction dropShared first second with
  | case1 restFirst head restSecond ih =>
      obtain ⟨shared, one, other, part⟩ := ih
      exact ⟨head :: shared, congrArg _ one, congrArg _ other, part⟩
  | case2 one restFirst other restSecond differs =>
      refine ⟨[], rfl, rfl, fun a b here there => ?_⟩
      cases here
      cases there
      exact differs
  | case3 first second apart =>
      refine ⟨[], rfl, rfl, fun one other here there => ?_⟩
      cases first with
      | nil => cases here
      | cons head tail =>
          cases second with
          | nil => cases there
          | cons next rest => exact (apart _ _ _ _ rfl rfl).elim

theorem path_eq_ok (found : chain.path body = .ok ids) : chain.Ascent body ids.reverse := by
  obtain ⟨ascent, ascended, same⟩ := bind_eq_ok.mp found
  cases same
  rw [List.reverse_reverse]
  exact ascend_eq_ok ascended

theorem nodup_branches {other : Option JointId} {a b : List JointId}
    (found : chain.branches body other = .ok (a, b)) : (a ++ b).Nodup := by
  simp only [branches, bind_eq_ok] at found
  obtain ⟨first, foundFirst, second, foundSecond, same⟩ := found
  obtain ⟨shared, ofFirst, ofSecond, part⟩ := dropShared_eq first second
  rw [Except.ok.inj same] at ofFirst ofSecond part
  have up := path_eq_ok foundFirst
  have down := path_eq_ok foundSecond
  rw [ofFirst, List.reverse_append] at up
  rw [ofSecond, List.reverse_append] at down
  have nodupA : a.Nodup := List.nodup_reverse.mp up.nodup.of_append_left
  have nodupB : b.Nodup := List.nodup_reverse.mp down.nodup.of_append_left
  refine nodupA.append nodupB fun id inA inB => ?_
  obtain ⟨beforeA, afterA, rfl⟩ := List.append_of_mem inA
  obtain ⟨beforeB, afterB, rfl⟩ := List.append_of_mem inB
  simp only [List.reverse_append, List.reverse_cons, List.append_assoc, List.singleton_append]
    at up down
  have tails := up.from_joint.unique down.from_joint
  have before : beforeA = beforeB :=
    List.reverse_injective (List.append_cancel_right (List.tail_eq_of_cons_eq tails))
  subst before
  cases beforeA with
  | nil => exact part _ _ rfl rfl rfl
  | cons head tail => exact part _ _ rfl rfl rfl

end Chain

/-- Where the origin of a frame is, and how its directions are turned. -/
@[ext] structure Placement where
  position : Fin 3 → ℝ
  rotation : Matrix (Fin 3) (Fin 3) ℝ

namespace Placement

def start : Placement := ⟨0, 1⟩

/-- The position of an offset in the moved frame. -/
def locate (placement : Placement) (offset : Fin 3 → ℝ) : Fin 3 → ℝ :=
  placement.position + placement.rotation.mulVec offset

end Placement

/-- The rotation of space about an axis. -/
noncomputable def Axis.turn (axis : Axis) (angle : ℝ) : Matrix (Fin 3) (Fin 3) ℝ :=
  let c := Real.cos angle
  let s := Real.sin angle
  match axis with
  | x => !![1, 0, 0; 0, c, -s; 0, s, c]
  | y => !![c, 0, s; 0, 1, 0; -s, 0, c]
  | z => !![c, -s, 0; s, c, 0; 0, 0, 1]

variable {κ : Type} [Scalar κ]

theorem Axis.shape_rotation (axis : Axis) (angle : Expr κ) :
    (axis.rotation angle).shape = .matrix 3 3 := rfl

section

variable [Exact κ]

def Direction.vector (direction : Direction κ) : Fin 3 → ℝ :=
  ![Exact.real direction.x, Exact.real direction.y, Exact.real direction.z]

/-- The real components of an offset. -/
noncomputable def Tensor.vectorIn (assignment : Assignment) (offset : Tensor κ) : Fin 3 → ℝ :=
  fun index => (offset.component index).valueIn assignment

/-- The real value of a coordinate. -/
noncomputable def Coordinate.valueIn (assignment : Assignment) (coordinate : Coordinate) : ℝ :=
  (assignment coordinate.atom).getD 0

namespace Placement

noncomputable def moveBy (assignment : Assignment) (placement : Placement) (joint : Joint κ) :
    Placement :=
  let anchored : Placement :=
    ⟨placement.locate (joint.anchor.vectorIn assignment), placement.rotation⟩
  let q := joint.coordinate.valueIn assignment
  match joint.motion with
  | .revolute axis => ⟨anchored.position, anchored.rotation * axis.turn q⟩
  | .prismatic direction => ⟨anchored.locate (q • direction.vector), anchored.rotation⟩

noncomputable def behind (assignment : Assignment) (joints : List (Joint κ)) : Placement :=
  joints.foldl (moveBy assignment) start

theorem behind_congr {left right : Assignment} {joints : List (Joint κ)}
    (anchors : ∀ joint ∈ joints, joint.anchor.vectorIn left = joint.anchor.vectorIn right)
    (coordinates : ∀ joint ∈ joints, joint.coordinate.valueIn left = joint.coordinate.valueIn right) :
    behind left joints = behind right joints := by
  unfold behind
  generalize start = placement
  induction joints generalizing placement with
  | nil => rfl
  | cons head tail ih =>
      rw [List.forall_mem_cons] at anchors coordinates
      have step : placement.moveBy left head = placement.moveBy right head := by
        simp only [moveBy, anchors.1, coordinates.1]
      rw [List.foldl_cons, List.foldl_cons, step, ih anchors.2 coordinates.2]

end Placement

theorem Axis.takes_rotation {assignment : Assignment} {angle : Expr κ} {value : ℝ}
    (takes : angle.Takes assignment value) (axis : Axis) (row column : Fin 3) :
    ((axis.rotation angle).part row column).Takes assignment (axis.turn value row column) := by
  have cosine : angle.cos.Takes assignment (Real.cos value) := Expr.takes_apply takes (if_pos trivial)
  have sine : angle.sin.Takes assignment (Real.sin value) := Expr.takes_apply takes (if_pos trivial)
  have back := Expr.takes_negate sine
  cases axis <;> fin_cases row <;> fin_cases column <;>
    first | exact cosine | exact sine | exact back | exact Expr.takes_zero | exact Expr.takes_one

end

section

variable [Exact κ] {seen : Set (Fin 3)} {assignment : Assignment}

/-- The seen components of a pose are those of a placement, and nothing unseen enters them. -/
structure Pose.Sees (seen : Set (Fin 3)) (assignment : Assignment) (pose : Pose κ)
    (placement : Placement) : Prop where
  position_shape : pose.position.shape = .vector 3
  position_length : pose.position.entries.length = 3
  rotation_shape : pose.rotation.shape = .matrix 3 3
  position : ∀ row ∈ seen, (pose.position.component row).Takes assignment (placement.position row)
  rotation : ∀ row ∈ seen, ∀ column : Fin 3,
    (pose.rotation.part row column).Takes assignment (placement.rotation row column)
  blind : ∀ row ∈ seen, ∀ column ∉ seen, (pose.rotation.part row column).isZero = true

def Axis.Keeps (κ : Type) [Scalar κ] (seen : Set (Fin 3)) (axis : Axis) : Prop :=
  ∀ angle : Expr κ, ∀ row ∈ seen, ∀ column ∉ seen, ((axis.rotation angle).part row column).isZero = true

structure Joint.Visible (seen : Set (Fin 3)) (assignment : Assignment) (joint : Joint κ) : Prop where
  shape : joint.anchor.shape = .vector 3
  anchor : ∀ index ∈ seen, (joint.anchor.component index).Defined assignment
  keeps : ∀ axis, joint.motion = .revolute axis → axis.Keeps κ seen
  driven : (assignment joint.coordinate.atom).isSome

theorem Joint.Visible.takes {joint : Joint κ} (visible : joint.Visible seen assignment) :
    (joint.coordinate.positionExpr : Expr κ).Takes assignment
      (joint.coordinate.valueIn assignment) := by
  obtain ⟨value, known⟩ := Option.isSome_iff_exists.mp visible.driven
  rw [Coordinate.positionExpr, Expr.takes_atom, Coordinate.valueIn, known, Option.getD_some]

omit [Exact κ] in
theorem Tensor.component_eq_part {offset : Tensor κ} (shape : offset.shape = .vector 3)
    (index : Nat) : offset.component index = offset.part index 0 := by
  rw [part_eq, shape, Shape.flatIndex, Shape.columns, Nat.mul_one, Nat.add_zero]

omit [Exact κ] in
theorem Pose.length_locate {pose : Pose κ} {offset : Tensor κ}
    (position : pose.position.entries.length = 3) (rotation : pose.rotation.shape = .matrix 3 3)
    (shape : offset.shape = .vector 3) : (pose.locate offset).entries.length = 3 := by
  simp [locate, Tensor.sumEntries, Tensor.multiply, position, Tensor.rows, Tensor.columns, rotation,
    shape, Shape.rows, Shape.columns]

theorem Pose.Sees.locate {pose : Pose κ} {placement : Placement}
    (sees : pose.Sees seen assignment placement) {offset : Tensor κ}
    (shape : offset.shape = .vector 3)
    (defined : ∀ index ∈ seen, (offset.component index).Defined assignment) :
    ∀ row ∈ seen, ((pose.locate offset).component row).Takes assignment
      (placement.locate (offset.vectorIn assignment) row) := by
  intro row member
  have rows : pose.rotation.rows = 3 := by rw [Tensor.rows, sees.rotation_shape, Shape.rows]
  have columns : pose.rotation.columns = 3 := by
    rw [Tensor.columns, sees.rotation_shape, Shape.columns]
  have width : offset.columns = 1 := by rw [Tensor.columns, shape, Shape.columns]
  have turned : (pose.rotation.multiply offset).shape = .vector 3 := by
    rw [Tensor.multiply, Tensor.shape_build, rows, width]
    rfl
  rw [Pose.locate, Tensor.component_sumEntries (by rw [sees.position_length]; exact row.isLt)
    (by simp [Tensor.multiply, rows, width])]
  apply Expr.takes_plus (sees.position row member)
  rw [Tensor.component_eq_part turned,
    Tensor.part_multiply (by rw [rows]; exact row.isLt) (by rw [width]; exact Nat.one_pos), columns]
  simp only [Matrix.mulVec, dotProduct]
  apply Expr.takes_sum_range
  intro inner
  rw [← Tensor.component_eq_part shape]
  by_cases visible : inner ∈ seen
  · exact Expr.takes_times (sees.rotation row member inner) (defined inner visible).takes
  · have zero := sees.blind row member inner visible
    rw [(sees.rotation row member inner).unique (Expr.isZero_takes zero), zero_mul]
    exact Expr.isZero_takes (Expr.isZero_times_left zero)

theorem Pose.Sees.turn {pose : Pose κ} {placement : Placement}
    (sees : pose.Sees seen assignment placement) {axis : Axis} (keeps : axis.Keeps κ seen)
    {angle : Expr κ} {value : ℝ} (takes : angle.Takes assignment value) :
    (Pose.mk pose.position (pose.rotation.multiply (axis.rotation angle))).Sees seen assignment
      ⟨placement.position, placement.rotation * axis.turn value⟩ := by
  have rows : pose.rotation.rows = 3 := by rw [Tensor.rows, sees.rotation_shape, Shape.rows]
  have columns : pose.rotation.columns = 3 := by
    rw [Tensor.columns, sees.rotation_shape, Shape.columns]
  have width : (axis.rotation angle).columns = 3 := rfl
  have entry (row column : Fin 3) :
      (pose.rotation.multiply (axis.rotation angle)).part row column =
        Expr.sum ((List.range 3).map fun inner =>
          pose.rotation.part row inner * (axis.rotation angle).part inner column) := by
    rw [Tensor.part_multiply (by rw [rows]; exact row.isLt) (by rw [width]; exact column.isLt),
      columns]
  constructor
  · exact sees.position_shape
  · exact sees.position_length
  · simp only [Tensor.multiply, Tensor.shape_build, rows, width]
    rfl
  · exact sees.position
  · intro row member column
    simp only [entry, Matrix.mul_apply]
    exact Expr.takes_sum_range fun inner =>
      Expr.takes_times (sees.rotation row member inner) (axis.takes_rotation takes inner column)
  · intro row member column hidden
    rw [entry]
    apply Expr.isZero_sum
    intro term among
    obtain ⟨inner, bound, rfl⟩ := List.mem_map.mp among
    lift inner to Fin 3 using List.mem_range.mp bound
    by_cases visible : inner ∈ seen
    · exact Expr.isZero_times_right (keeps angle inner visible column hidden)
    · exact Expr.isZero_times_left (sees.blind row member inner visible)

theorem Pose.takes_slide (direction : Direction κ) {distance : Expr κ} {value : ℝ}
    (takes : distance.Takes assignment value) (index : Fin 3) :
    ((Pose.slide direction distance).component index).Takes assignment
      ((value • direction.vector) index) := by
  rw [Pi.smul_apply, smul_eq_mul, mul_comm]
  fin_cases index <;> exact Expr.takes_times (Expr.takes_number _) takes

theorem Pose.Sees.moveBy {pose : Pose κ} {placement : Placement}
    (sees : pose.Sees seen assignment placement) {joint : Joint κ}
    (visible : joint.Visible seen assignment) :
    (pose.moveBy joint).Sees seen assignment (placement.moveBy assignment joint) := by
  have anchored : (Pose.mk (pose.locate joint.anchor) pose.rotation).Sees seen assignment
      ⟨placement.locate (joint.anchor.vectorIn assignment), placement.rotation⟩ :=
    { sees with
      position_length := length_locate sees.position_length sees.rotation_shape visible.shape
      position := sees.locate visible.shape visible.anchor }
  cases motion : joint.motion with
  | revolute axis =>
      simp only [Pose.moveBy, Placement.moveBy, motion]
      exact anchored.turn (visible.keeps axis motion) visible.takes
  | prismatic direction =>
      simp only [Pose.moveBy, Placement.moveBy, motion]
      have slides := takes_slide direction visible.takes
      have real : (slide direction joint.coordinate.positionExpr).vectorIn assignment =
          joint.coordinate.valueIn assignment • direction.vector :=
        funext fun index => (slides index).valueIn_eq
      rw [← real]
      exact { anchored with
        position_length := length_locate anchored.position_length sees.rotation_shape rfl
        position := anchored.locate rfl fun index _ => (slides index).defined }

theorem Pose.sees_start : (Pose.start : Pose κ).Sees seen assignment .start where
  position_shape := rfl
  position_length := rfl
  rotation_shape := rfl
  position row _ := by fin_cases row <;> exact Expr.takes_zero
  rotation row _ column := by
    fin_cases row <;> fin_cases column <;> first | exact Expr.takes_one | exact Expr.takes_zero
  blind row member column hidden := by
    fin_cases row <;> fin_cases column <;>
      first | exact absurd member hidden | exact Expr.isZero_zero

theorem Pose.sees_behind {joints : List (Joint κ)}
    (visible : ∀ joint ∈ joints, joint.Visible seen assignment) :
    (joints.foldl Pose.moveBy Pose.start).Sees seen assignment (.behind assignment joints) := by
  suffices along : ∀ (pose : Pose κ) (placement : Placement), pose.Sees seen assignment placement →
      (joints.foldl Pose.moveBy pose).Sees seen assignment
        (joints.foldl (Placement.moveBy assignment) placement) from along _ _ Pose.sees_start
  induction joints with
  | nil => exact fun _ _ sees => sees
  | cons head tail ih =>
      rw [List.forall_mem_cons] at visible
      exact fun _ _ sees => ih visible.2 _ _ (sees.moveBy visible.1)

end

/-- The chains that are made by adding one joint after the other. -/
inductive Chain.Built : Chain κ → Prop
  | empty : Built .empty
  | add {chain later : Chain κ} {joint : Joint κ} {id : JointId} :
      Built chain → chain.add joint = .ok (id, later) → Built later

theorem checkOffset_eq_ok {owner : String} {offset : Tensor κ} :
    checkOffset owner offset = .ok () ↔ offset.shape = .vector 3 := by
  unfold checkOffset
  split <;> simp_all

theorem Chain.add_eq_ok {chain later : Chain κ} {joint : Joint κ} {id : JointId}
    (added : chain.add joint = .ok (id, later)) :
    joint.anchor.shape = .vector 3 ∧ ∃ motion, normalize joint.name joint.motion = .ok motion ∧
      later.joints = chain.joints ++ [{ joint with motion := motion }] := by
  have appended : (do
      checkOffset joint.name joint.anchor
      let motion ← normalize joint.name joint.motion
      return ((⟨chain.length⟩, ⟨chain.joints ++ [{ joint with motion := motion }]⟩) :
        JointId × Chain κ)) = .ok (id, later) := by
    unfold add at added
    by_cases known : (chain.find? joint.name).isSome = true
    · rw [if_pos known] at added
      cases added
    · rw [if_neg known] at added
      cases placed : joint.parent with
      | none => simpa only [placed] using added
      | some parent =>
          rw [placed] at added
          by_cases beyond : chain.length ≤ parent.index
          · simp only [if_pos beyond] at added
            cases added
          · simpa only [if_neg beyond] using added
  simp only [bind_eq_ok] at appended
  obtain ⟨_, checked, motion, normalized, same⟩ := appended
  cases same
  exact ⟨checkOffset_eq_ok.mp checked, motion, normalized, rfl⟩

theorem Chain.Built.anchor_shape {chain : Chain κ} (built : chain.Built) :
    ∀ joint ∈ chain.joints, joint.anchor.shape = .vector 3 := by
  induction built with
  | empty => simp [Chain.empty]
  | add _ added ih =>
      obtain ⟨shape, motion, _, joints⟩ := Chain.add_eq_ok added
      rw [joints]
      simp only [List.mem_append, List.mem_singleton]
      rintro joint (before | rfl)
      · exact ih joint before
      · exact shape

end Mechanism
