import Mathlib.LinearAlgebra.UnitaryGroup
import Mechanism.Proofs.Loop.Closure
import Mechanism.Proofs.Loop.Reads
import Mechanism.Proofs.Chain.Paths

/-!
Positions relative to the base that two frames share. What the joints above the base do to a frame
is a rotation and a shift that both frames have in common, so that their mismatch is the one
relative to the base, turned by the joints above it.
-/

namespace Mechanism

open Matrix

variable {κ : Type} [Scalar κ] {assignment : Assignment}

theorem Axis.turn_mem (axis : Axis) (angle : ℝ) :
    axis.turn angle ∈ specialOrthogonalGroup (Fin 3) ℝ := by
  have unit := Real.sin_sq_add_cos_sq angle
  rw [mem_specialOrthogonalGroup_iff, mem_orthogonalGroup_iff]
  constructor
  · ext row column
    cases axis <;> fin_cases row <;> fin_cases column <;>
      simp [turn, Matrix.mul_apply, Fin.sum_univ_three] <;> linarith
  · rw [det_fin_three]
    cases axis <;> simp [turn] <;> linarith

noncomputable def turns (assignment : Assignment) (joints : List (Joint κ)) :
    List (Matrix (Fin 3) (Fin 3) ℝ) :=
  joints.filterMap fun joint =>
    match joint.motion with
    | .revolute axis => some (axis.turn (joint.coordinate.valueIn assignment))
    | .prismatic _ => none

theorem prod_turns_mem (joints : List (Joint κ)) :
    (turns assignment joints).prod ∈ specialOrthogonalGroup (Fin 3) ℝ := by
  apply list_prod_mem
  intro turn member
  obtain ⟨joint, _, found⟩ := List.mem_filterMap.mp member
  split at found
  · cases found
    exact Axis.turn_mem _ _
  · cases found

theorem mulVec_eq_zero_iff {rotation : Matrix (Fin 3) (Fin 3) ℝ}
    (proper : rotation ∈ specialOrthogonalGroup (Fin 3) ℝ) {vector : Fin 3 → ℝ} :
    rotation.mulVec vector = 0 ↔ vector = 0 := by
  have back : star rotation * rotation = 1 :=
    (mem_orthogonalGroup_iff' _ _).mp (mem_specialOrthogonalGroup_iff.mp proper).1
  constructor
  · intro zero
    rw [← one_mulVec vector, ← back, ← mulVec_mulVec, zero, mulVec_zero]
  · rintro rfl
    exact mulVec_zero _

variable [Exact κ]

namespace Placement

def within (outer inner : Placement) : Placement :=
  ⟨outer.locate inner.position, outer.rotation * inner.rotation⟩

variable {outer inner : Placement}

theorem within_start (placement : Placement) : placement.within start = placement := by
  ext1 <;> simp [within, start, locate]

theorem locate_within (offset : Fin 3 → ℝ) :
    (outer.within inner).locate offset = outer.locate (inner.locate offset) := by
  simp only [within, locate, mulVec_add, mulVec_mulVec, add_assoc]

theorem shift_within (offset : Fin 3 → ℝ) :
    (⟨(outer.within inner).locate offset, (outer.within inner).rotation⟩ : Placement) =
      outer.within ⟨inner.locate offset, inner.rotation⟩ := by
  rw [locate_within]
  rfl

theorem moveBy_within (joint : Joint κ) : (outer.within inner).moveBy assignment joint =
    outer.within (inner.moveBy assignment joint) := by
  cases motion : joint.motion with
  | revolute axis =>
      simp only [moveBy, motion, locate_within]
      simp only [within, Matrix.mul_assoc]
  | prismatic direction =>
      simp only [moveBy, motion, shift_within]
      exact shift_within _

theorem behind_append (shared branch : List (Joint κ)) :
    behind assignment (shared ++ branch) =
      (behind assignment shared).within (behind assignment branch) := by
  have along : ∀ inner : Placement, branch.foldl (moveBy assignment)
      ((behind assignment shared).within inner) =
        (behind assignment shared).within (branch.foldl (moveBy assignment) inner) := by
    induction branch with
    | nil => exact fun _ => rfl
    | cons head tail ih =>
        intro inner
        rw [List.foldl_cons, List.foldl_cons, moveBy_within, ih]
  calc behind assignment (shared ++ branch)
      = branch.foldl (moveBy assignment) (behind assignment shared) := List.foldl_append
    _ = branch.foldl (moveBy assignment) ((behind assignment shared).within start) := by
        rw [within_start]
    _ = (behind assignment shared).within (behind assignment branch) := along start

theorem rotation_moveBy (placement : Placement) (joint : Joint κ) :
    (placement.moveBy assignment joint).rotation =
      placement.rotation * (turns assignment [joint]).prod := by
  cases motion : joint.motion with
  | revolute axis => simp [moveBy, turns, motion]
  | prismatic direction => simp [moveBy, turns, motion]

theorem rotation_behind (joints : List (Joint κ)) :
    (behind assignment joints).rotation = (turns assignment joints).prod := by
  have along : ∀ placement : Placement, (joints.foldl (moveBy assignment) placement).rotation =
      placement.rotation * (turns assignment joints).prod := by
    induction joints with
    | nil => simp [turns]
    | cons head tail ih =>
        intro placement
        have split : turns assignment (head :: tail) =
            turns assignment [head] ++ turns assignment tail := List.filterMap_append (l := [head])
        rw [List.foldl_cons, ih, rotation_moveBy, split, List.prod_append, Matrix.mul_assoc]
  rw [behind, along, start, Matrix.one_mul]

end Placement

namespace Loop.Problem

variable {problem : Problem κ} {a b : List JointId}

omit [Exact κ] in
theorem exists_mismatch (anchors : ∀ joint ∈ problem.chain.joints, joint.anchor.shape = .vector 3)
    (frameA : problem.request.frameA.position.shape = .vector 3)
    (frameB : problem.request.frameB.position.shape = .vector 3)
    (known : ∀ id ∈ a ++ b, ∃ joint, problem.chain.joint? id = some joint) :
    ∃ whole, problem.mismatch a b = .ok whole := by
  rw [List.forall_mem_append] at known
  obtain ⟨left, foundLeft⟩ := Chain.exists_positionOf frameA known.1
  obtain ⟨right, foundRight⟩ := Chain.exists_positionOf frameB known.2
  have ends (ids : List JointId) {frame : Frame κ} (shape : frame.position.shape = .vector 3) :
      (located (problem.jointsOf ids) frame).shape = .vector 3 :=
    ((Pose.spatial_behind fun joint (member : joint ∈ problem.jointsOf ids) =>
      anchors joint (mem_joints_of_mem_jointsOf member)).locate shape).1
  have same : left.shape = right.shape := by
    rw [(positionOf_eq_ok foundLeft).2, (positionOf_eq_ok foundRight).2, ends a frameA, ends b frameB]
  refine ⟨⟨left.shape, List.zipWith (· - ·) left.entries right.entries⟩, ?_⟩
  simp only [mismatch, bind_eq_ok, ofChain_eq_ok, ofAlgebra_eq_ok]
  exact ⟨left, foundLeft, right, foundRight, if_pos same⟩

theorem locate_append (shared joints : List (Joint κ)) (frame : Frame κ) :
    locate assignment (shared ++ joints) frame =
      (Placement.behind assignment shared).locate (locate assignment joints frame) := by
  rw [locate, locate, Placement.behind_append, Placement.locate_within]

theorem locate_sub (assignment : Assignment) (shared first second : List (Joint κ))
    (one other : Frame κ) :
    locate assignment (shared ++ first) one - locate assignment (shared ++ second) other =
      (turns assignment shared).prod.mulVec
        (locate assignment first one - locate assignment second other) := by
  rw [locate_append, locate_append, Placement.locate, Placement.locate, add_sub_add_left_eq_sub,
    ← mulVec_sub, Placement.rotation_behind]

/-- Everything that the position of a frame depends on has a value. -/
structure Valued (assignment : Assignment) (joints : List (Joint κ)) (frame : Frame κ) : Prop where
  anchors : ∀ joint ∈ joints, ∀ index : Fin 3, (joint.anchor.component index).Defined assignment
  coordinates : ∀ joint ∈ joints, (assignment joint.coordinate.atom).isSome
  frame : ∀ index : Fin 3, (frame.position.component index).Defined assignment

theorem Valued.of_append {shared joints : List (Joint κ)} {frame : Frame κ}
    (valued : Valued assignment (shared ++ joints) frame) : Valued assignment joints frame where
  anchors := fun joint member => valued.anchors joint (List.mem_append_right _ member)
  coordinates := fun joint member => valued.coordinates joint (List.mem_append_right _ member)
  frame := valued.frame

theorem Valued.visible {ids : List JointId} {frame : Frame κ}
    (valued : Valued assignment (problem.jointsOf ids) frame)
    (anchors : ∀ joint ∈ problem.chain.joints, joint.anchor.shape = .vector 3) :
    Visible Set.univ assignment (problem.jointsOf ids) frame where
  joints := fun joint member =>
    ⟨anchors joint (mem_joints_of_mem_jointsOf member), fun index _ => valued.anchors joint member index,
      fun _ _ _ _ _ _ hidden => absurd trivial hidden, valued.coordinates joint member⟩
  frame := fun index _ => valued.frame index

omit [Exact κ] in
theorem jointsOf_append (shared ids : List JointId) :
    problem.jointsOf (shared ++ ids) = problem.jointsOf shared ++ problem.jointsOf ids :=
  List.filterMap_append

/-- Two frames of a chain are found along their whole paths and along the branches below the joints
that the paths share, and no joint is on both branches. Along the paths, the frames are apart by
what they are apart along the branches, turned by all shared joints that turn. This is a rotation,
so that the frames meet in one of the two views just when they do in the other one. -/
theorem mismatch_of_paths (built : problem.chain.Built)
    (shapeA : problem.request.frameA.position.shape = .vector 3)
    (shapeB : problem.request.frameB.position.shape = .vector 3)
    (bearsA : problem.chain.Bears problem.request.frameA.body)
    (bearsB : problem.chain.Bears problem.request.frameB.body) :
    ∃ shared a b whole relative,
      problem.chain.path problem.request.frameA.body = .ok (shared ++ a) ∧
      problem.chain.path problem.request.frameB.body = .ok (shared ++ b) ∧
      problem.chain.branches problem.request.frameA.body problem.request.frameB.body = .ok (a, b) ∧
      (a ++ b).Nodup ∧
      problem.mismatch (shared ++ a) (shared ++ b) = .ok whole ∧ whole.entries.length = 3 ∧
      problem.mismatch a b = .ok relative ∧ relative.entries.length = 3 ∧
      ∀ assignment : Assignment,
        Valued assignment (problem.jointsOf (shared ++ a)) problem.request.frameA →
        Valued assignment (problem.jointsOf (shared ++ b)) problem.request.frameB →
        let rotation := (turns assignment (problem.jointsOf shared)).prod
        ∃ apart below : Fin 3 → ℝ,
          (∀ index : Fin 3, (whole.component index).Takes assignment (apart index)) ∧
          (∀ index : Fin 3, (relative.component index).Takes assignment (below index)) ∧
          rotation ∈ specialOrthogonalGroup (Fin 3) ℝ ∧ apart = rotation.mulVec below ∧
          (apart = 0 ↔ below = 0) := by
  obtain ⟨pathA, foundA⟩ := built.exists_path bearsA
  obtain ⟨pathB, foundB⟩ := built.exists_path bearsB
  have branched : problem.chain.branches problem.request.frameA.body problem.request.frameB.body =
      .ok (Chain.dropShared pathA pathB) := by
    simp only [Chain.branches, bind_eq_ok]
    exact ⟨pathA, foundA, pathB, foundB, rfl⟩
  obtain ⟨shared, ofA, ofB, _⟩ := Chain.dropShared_eq pathA pathB
  generalize Chain.dropShared pathA pathB = branches at branched ofA ofB
  obtain ⟨a, b⟩ := branches
  obtain rfl : pathA = shared ++ a := ofA
  obtain rfl : pathB = shared ++ b := ofB
  have shapes := built.anchor_shape
  have knownA := Chain.known_of_path foundA
  have knownB := Chain.known_of_path foundB
  obtain ⟨whole, full⟩ := exists_mismatch shapes shapeA shapeB
    (List.forall_mem_append.mpr ⟨knownA, knownB⟩)
  rw [List.forall_mem_append] at knownA knownB
  obtain ⟨relative, below⟩ := exists_mismatch shapes shapeA shapeB
    (List.forall_mem_append.mpr ⟨knownA.2, knownB.2⟩)
  refine ⟨shared, a, b, whole, relative, foundA, foundB, branched, Chain.nodup_branches branched, full,
    (mismatch_spatial shapes full).2, below, (mismatch_spatial shapes below).2, ?_⟩
  intro assignment valuedA valuedB rotation
  obtain ⟨_, far⟩ := takes_mismatch full (valuedA.visible shapes) (valuedB.visible shapes)
  rw [jointsOf_append] at valuedA valuedB
  obtain ⟨_, near⟩ := takes_mismatch below (valuedA.of_append.visible shapes)
    (valuedB.of_append.visible shapes)
  have proper : rotation ∈ specialOrthogonalGroup (Fin 3) ℝ := prod_turns_mem _
  have turned := locate_sub assignment (problem.jointsOf shared)
    (problem.jointsOf a) (problem.jointsOf b) problem.request.frameA problem.request.frameB
  rw [← jointsOf_append, ← jointsOf_append] at turned
  refine ⟨locate assignment (problem.jointsOf (shared ++ a)) problem.request.frameA -
      locate assignment (problem.jointsOf (shared ++ b)) problem.request.frameB,
    locate assignment (problem.jointsOf a) problem.request.frameA -
      locate assignment (problem.jointsOf b) problem.request.frameB,
    fun index => far index trivial, fun index => near index trivial, proper, turned, ?_⟩
  rw [turned]
  exact mulVec_eq_zero_iff proper

namespace Fork

open Sample

noncomputable def base : Joint RealNumber := ⟨"base", .revolute .z, coordinate 1, none, along 1⟩

noncomputable def left : Joint RealNumber :=
  ⟨"left", .revolute .y, coordinate 2, some ⟨0⟩, along 1⟩

noncomputable def right : Joint RealNumber :=
  ⟨"right", .revolute .x, coordinate 3, some ⟨0⟩, along (1 + 1)⟩

noncomputable def linkage : Problem RealNumber where
  chain := ⟨[base, left, right]⟩
  request := ⟨"fork", .fourBar .positive, ⟨"a", some ⟨1⟩, along (1 + 1)⟩, ⟨"b", some ⟨2⟩, along 1⟩,
    [⟨0⟩], [⟨1⟩, ⟨2⟩]⟩

theorem built : linkage.chain.Built := by
  have one : (Chain.empty : Chain RealNumber).add base = .ok (⟨0⟩, ⟨[base]⟩) := rfl
  have two : (⟨[base]⟩ : Chain RealNumber).add left = .ok (⟨1⟩, ⟨[base, left]⟩) := rfl
  have three : (⟨[base, left]⟩ : Chain RealNumber).add right = .ok (⟨2⟩, linkage.chain) := rfl
  exact ((Chain.Built.empty.add one).add two).add three

/-- Every joint has made a quarter of a turn. -/
noncomputable def quarter : Assignment := fun _ => some (Real.pi / (1 + 1))

theorem defined_along (distance : ℝ) (index : Fin 3) :
    ((along distance).component index).Defined quarter := by
  fin_cases index
  · exact ⟨distance, (Expr.takes_num _ _).mpr rfl⟩
  · exact ⟨0, Expr.takes_zero⟩
  · exact ⟨0, Expr.takes_zero⟩

theorem valued {ids : List JointId} {frame : Frame RealNumber}
    (straight : ∃ distance, frame.position = along distance) :
    Valued quarter (linkage.jointsOf ids) frame where
  anchors := by
    intro joint member index
    have among : joint ∈ [base, left, right] := mem_joints_of_mem_jointsOf member
    obtain rfl | rfl | rfl : joint = base ∨ joint = left ∨ joint = right := by simpa using among
    all_goals exact defined_along _ index
  coordinates := fun _ _ => rfl
  frame := by
    obtain ⟨distance, same⟩ := straight
    exact same ▸ defined_along distance

end Fork

/-- The prongs are joined by the base only, and are apart by what they are seen from it to be apart,
turned by what the base is turned. -/
theorem fork_apart : ∃ whole relative, Fork.linkage.mismatch [⟨0⟩, ⟨1⟩] [⟨0⟩, ⟨2⟩] = .ok whole ∧
    Fork.linkage.mismatch [⟨1⟩] [⟨2⟩] = .ok relative ∧ ∃ apart below : Fin 3 → ℝ,
      (∀ index : Fin 3, (whole.component index).Takes Fork.quarter (apart index)) ∧
      (∀ index : Fin 3, (relative.component index).Takes Fork.quarter (below index)) ∧
      apart = (Axis.z.turn (Real.pi / 2)).mulVec below := by
  obtain ⟨shared, a, b, whole, relative, foundA, foundB, branched, _, full, _, near, _, each⟩ :=
    mismatch_of_paths Fork.built rfl rfl (by rintro _ ⟨⟩; decide) (by rintro _ ⟨⟩; decide)
  obtain ⟨rfl, rfl⟩ : [⟨1⟩] = a ∧ [⟨2⟩] = b := Prod.mk.inj (Except.ok.inj branched)
  have path : [⟨0⟩, ⟨1⟩] = shared ++ [⟨1⟩] := Except.ok.inj foundA
  obtain rfl : [⟨0⟩] = shared := List.append_cancel_right (path : [⟨0⟩] ++ [⟨1⟩] = shared ++ [⟨1⟩])
  obtain ⟨apart, below, one, other, _, turned, _⟩ :=
    each Fork.quarter (Fork.valued ⟨1 + 1, rfl⟩) (Fork.valued ⟨1, rfl⟩)
  have base : turns Fork.quarter (Fork.linkage.jointsOf [⟨0⟩]) = [Axis.z.turn (Real.pi / 2)] := by
    rw [← one_add_one_eq_two]
    rfl
  rw [base, List.prod_singleton] at turned
  exact ⟨whole, relative, full, near, apart, below, one, other, turned⟩

end Loop.Problem

end Mechanism
