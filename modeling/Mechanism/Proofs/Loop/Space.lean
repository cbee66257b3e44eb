import Mechanism.Proofs.Loop.Circles
import Mechanism.Proofs.Loop.Reads
import Mechanism.Proofs.Loop.Sliders

/-!
Planar loops in space. All joints that turn share an axis, and only what is seen in the plane of
that axis is constrained. Along the axis, the frames at the ends of the two branches are where the
links add up to, whatever the angles are.
-/

namespace Mechanism

namespace Axis

def height (axis : Axis) (vector : Fin 3 → ℝ) : ℝ := vector axis.apart

variable (axis : Axis)

theorem inPlane_or_apart (index : Fin 3) : index ∈ axis.inPlane ∨ index = axis.apart := by
  rw [mem_inPlane]
  cases axis <;> fin_cases index <;> decide

@[simp] theorem height_zero : axis.height 0 = 0 := rfl

@[simp] theorem height_add (left right : Fin 3 → ℝ) :
    axis.height (left + right) = axis.height left + axis.height right := rfl

@[simp] theorem height_smul (factor : ℝ) (vector : Fin 3 → ℝ) :
    axis.height (factor • vector) = factor * axis.height vector := rfl

@[simp] theorem height_turn (angle : ℝ) (vector : Fin 3 → ℝ) :
    axis.height ((axis.turn angle).mulVec vector) = axis.height vector := by
  cases axis <;> simp [height, turn, apart, Matrix.mulVec, dotProduct, Fin.sum_univ_three]

end Axis

variable {κ : Type} [Scalar κ] [Exact κ] {assignment : Assignment} {axis : Axis}

/-- What a joint adds along the axis. -/
noncomputable def Joint.rise (assignment : Assignment) (axis : Axis) (joint : Joint κ) : ℝ :=
  axis.height (joint.anchor.vectorIn assignment) +
    match joint.motion with
    | .revolute _ => 0
    | .prismatic direction =>
      joint.coordinate.valueIn assignment * axis.height direction.vector

namespace Placement

structure Upright (axis : Axis) (placement : Placement) (height : ℝ) : Prop where
  position : axis.height placement.position = height
  rotation : ∀ vector, axis.height (placement.rotation.mulVec vector) = axis.height vector

namespace Upright

variable {placement : Placement} {height : ℝ} {joint : Joint κ}

theorem start : Placement.start.Upright axis 0 where
  position := rfl
  rotation := fun vector => by rw [Placement.start, Matrix.one_mulVec]

theorem locate (upright : placement.Upright axis height) (offset : Fin 3 → ℝ) :
    axis.height (placement.locate offset) = height + axis.height offset := by
  rw [Placement.locate, Axis.height_add, upright.position, upright.rotation]

theorem moveBy (upright : placement.Upright axis height)
    (turns : ∀ other, joint.motion = .revolute other → axis = other) :
    (placement.moveBy assignment joint).Upright axis (height + joint.rise assignment axis) := by
  have anchored : (Placement.mk (placement.locate (joint.anchor.vectorIn assignment))
      placement.rotation).Upright axis (height + axis.height (joint.anchor.vectorIn assignment)) :=
    ⟨upright.locate _, upright.rotation⟩
  cases motion : joint.motion with
  | revolute other =>
      obtain rfl := turns other motion
      simp only [Placement.moveBy, motion, Joint.rise, add_zero]
      refine ⟨anchored.position, fun vector => ?_⟩
      rw [← Matrix.mulVec_mulVec, upright.rotation, Axis.height_turn]
  | prismatic direction =>
      simp only [Placement.moveBy, motion, Joint.rise]
      refine ⟨?_, upright.rotation⟩
      rw [anchored.locate, Axis.height_smul, add_assoc]

theorem behind {joints : List (Joint κ)}
    (turns : ∀ joint ∈ joints, ∀ other, joint.motion = .revolute other → axis = other) :
    (Placement.behind assignment joints).Upright axis
      (joints.map (Joint.rise assignment axis)).sum := by
  suffices along : ∀ placement height, Upright axis placement height →
      (joints.foldl (Placement.moveBy assignment) placement).Upright axis
        (height + (joints.map (Joint.rise assignment axis)).sum) by
    have whole := along _ _ start
    rwa [zero_add] at whole
  induction joints with
  | nil => simp
  | cons head tail ih =>
      rw [List.forall_mem_cons] at turns
      intro placement height upright
      rw [List.foldl_cons, List.map_cons, List.sum_cons, ← add_assoc]
      exact ih turns.2 _ _ (upright.moveBy turns.1)

end Upright

end Placement

namespace Loop

/-- The closed forms that only look at a plane. -/
def Topology.IsPlanar : Topology κ → Prop
  | .fourBar _ | .fourBarTrans | .threeBarTrans | .crankSlider _ | .steering _ => True
  | _ => False

namespace Problem

variable {problem : Problem κ} {geometry : Geometry κ}

/-- How far a frame at the end of a branch is along the axis. -/
noncomputable def rise (assignment : Assignment) (axis : Axis) (joints : List (Joint κ))
    (frame : Frame κ) : ℝ :=
  (joints.map (Joint.rise assignment axis)).sum +
    axis.height (frame.position.vectorIn assignment)

/-- All links and slides are in planes of the axis. -/
structure Flat (problem : Problem κ) (assignment : Assignment) (axis : Axis) : Prop where
  links : ∀ offset ∈ problem.offsets, axis.height (offset.vectorIn assignment) = 0
  slides : ∀ joint ∈ problem.legs.1 ++ problem.legs.2, ∀ direction,
    joint.motion = .prismatic direction → axis.height direction.vector = 0

/-- The two frames have this component of their positions in common. -/
def MeetsIn (problem : Problem κ) (assignment : Assignment) (index : Fin 3) : Prop :=
  ∃ a b left right value,
    problem.chain.branches problem.request.frameA.body problem.request.frameB.body = .ok (a, b) ∧
    problem.chain.positionOf a problem.request.frameA = .ok left ∧
    problem.chain.positionOf b problem.request.frameB = .ok right ∧
    (left.component index).Takes assignment value ∧ (right.component index).Takes assignment value

/-- The joints on the branches have positions, and the links are known. -/
structure Posed (problem : Problem κ) (assignment : Assignment) : Prop where
  links : ∀ offset ∈ problem.offsets, ∀ index : Fin 3, (offset.component index).Defined assignment
  joints : ∀ joint ∈ problem.legs.1 ++ problem.legs.2, (assignment joint.coordinate.atom).isSome

theorem exists_planar (planar : problem.request.topology.IsPlanar)
    (solved : problem.solve = .ok geometry) :
    ∃ axis first second drivers driven, problem.axis? = some axis ∧
      problem.Planar geometry axis first second drivers driven := by
  obtain ⟨a, b, branched, legs⟩ := exists_branches solved
  cases topology : problem.request.topology with
  | fourBar posture =>
      rw [(solve_fourBar branched topology).1] at solved
      obtain ⟨axis, crank, coupler, rocker, linkage⟩ := fourBar_eq_ok legs solved
      exact ⟨axis, _, _, _, _, linkage.planar.axis?_eq (by simp) linkage.crankTurns, linkage.planar⟩
  | fourBarTrans =>
      rw [(solve_pivotedSlider branched).1 topology] at solved
      obtain ⟨axis, first, pivot, slider, direction, linkage⟩ := fourBarTrans_eq_ok legs solved
      exact ⟨axis, _, _, _, _, linkage.planar.axis?_eq (by simp) linkage.pivotTurns, linkage.planar⟩
  | threeBarTrans =>
      rw [(solve_pivotedSlider branched).2 topology] at solved
      obtain ⟨axis, first, pivot, slider, direction, linkage⟩ := threeBarTrans_eq_ok legs solved
      exact ⟨axis, _, _, _, _, linkage.planar.axis?_eq (by simp) linkage.pivotTurns, linkage.planar⟩
  | crankSlider posture =>
      rw [(solve_crankSlider branched topology).1] at solved
      obtain ⟨axis, crank, slider, rod, direction, linkage⟩ := crankSlider_eq_ok legs solved
      exact ⟨axis, _, _, _, _, linkage.planar.axis?_eq (by simp) linkage.crankTurns, linkage.planar⟩
  | steering posture =>
      rw [(solve_steering branched topology).1] at solved
      obtain ⟨axis, rack, tieRod, knuckle, direction, linkage⟩ := steering_eq_ok legs solved
      exact ⟨axis, _, _, _, _, linkage.planar.axis?_eq (by simp) linkage.tieRodTurns, linkage.planar⟩
  | _ => exact absurd planar (by simp [topology, Topology.IsPlanar])

theorem rise_of_flat (flat : problem.Flat assignment axis) {joints : List (Joint κ)}
    {frame : Frame κ} (within : ∀ joint ∈ joints, joint ∈ problem.legs.1 ++ problem.legs.2)
    (tip : frame.position ∈ problem.offsets) : rise assignment axis joints frame = 0 := by
  have level : ∀ joint ∈ joints, joint.rise assignment axis = 0 := by
    intro joint member
    have anchored := flat.links joint.anchor
      (List.mem_append_left _ (List.mem_map_of_mem (within joint member)))
    cases motion : joint.motion with
    | revolute other => simp only [Joint.rise, motion, anchored, add_zero]
    | prismatic direction =>
        have slides := flat.slides joint (within joint member) direction motion
        simp only [Joint.rise, motion, anchored, slides, mul_zero, add_zero]
  rw [rise, flat.links _ tip, add_zero]
  exact List.sum_eq_zero fun height member => by
    obtain ⟨joint, among, rfl⟩ := List.mem_map.mp member
    exact level joint among

theorem height_locate {joints : List (Joint κ)}
    (turns : ∀ joint ∈ joints, ∀ other, joint.motion = .revolute other → axis = other)
    (frame : Frame κ) : axis.height (locate assignment joints frame) =
      rise assignment axis joints frame :=
  (Placement.Upright.behind turns).locate _

omit [Exact κ] in
theorem Spans.positions {a b : List JointId} (spans : problem.Spans a b geometry) :
    ∃ left right, problem.chain.positionOf a problem.request.frameA = .ok left ∧
      problem.chain.positionOf b problem.request.frameB = .ok right := by
  have matched : ∃ whole, problem.mismatch a b = .ok whole := by
    rcases spans.constraint with matched | ⟨axis, matched⟩
    · exact ⟨_, matched⟩
    · obtain ⟨whole, matched, _⟩ := bind_eq_ok.mp matched
      exact ⟨whole, matched⟩
  obtain ⟨whole, matched⟩ := matched
  simp only [mismatch, bind_eq_ok, ofChain_eq_ok] at matched
  obtain ⟨left, foundLeft, right, foundRight, _⟩ := matched
  exact ⟨left, right, foundLeft, foundRight⟩

theorem meetsIn_iff (built : problem.chain.Built) (posed : problem.Posed assignment)
    {a b : List JointId} (branched : problem.chain.branches problem.request.frameA.body
      problem.request.frameB.body = .ok (a, b)) (spans : problem.Spans a b geometry)
    (index : Fin 3) : problem.MeetsIn assignment index ↔
      locate assignment problem.legs.1 problem.request.frameA index =
        locate assignment problem.legs.2 problem.request.frameB index := by
  have legs : problem.legs = (problem.jointsOf a, problem.jointsOf b) := by
    simp only [Problem.legs, branched]
  obtain ⟨left, right, foundLeft, foundRight⟩ := spans.positions
  -- in space, everything is seen
  have links : ∀ offset ∈ problem.offsets, ∀ place ∈ Set.univ,
      (offset.component (place : Fin 3)).Defined assignment :=
    fun offset member place _ => posed.links offset member place
  have first : Visible Set.univ assignment problem.legs.1 problem.request.frameA :=
    visible_of_leg built (.inl ⟨rfl, rfl⟩) links
      (fun joint member => posed.joints joint (List.mem_append_left _ member))
      fun _ _ _ _ _ _ _ _ hidden => absurd trivial hidden
  have second : Visible Set.univ assignment problem.legs.2 problem.request.frameB :=
    visible_of_leg built (.inr ⟨rfl, rfl⟩) links
      (fun joint member => posed.joints joint (List.mem_append_right _ member))
      fun _ _ _ _ _ _ _ _ hidden => absurd trivial hidden
  rw [legs] at first second ⊢
  obtain ⟨shapeLeft, rfl⟩ := positionOf_eq_ok foundLeft
  obtain ⟨shapeRight, rfl⟩ := positionOf_eq_ok foundRight
  have one := (Pose.sees_behind first.joints).locate shapeLeft first.frame index trivial
  have other := (Pose.sees_behind second.joints).locate shapeRight second.frame index trivial
  constructor
  · rintro ⟨c, d, _, _, value, again, foundC, foundD, takesC, takesD⟩
    rw [branched] at again
    cases again
    rw [foundLeft] at foundC
    rw [foundRight] at foundD
    cases foundC
    cases foundD
    exact (one.unique takesC).trans (takesD.unique other)
  · intro same
    exact ⟨a, b, _, _, _, branched, foundLeft, foundRight, one, (congrArg _ same).mpr other⟩

theorem Planar.closed_iff {first second drivers driven : List (Joint κ)}
    (linkage : problem.Planar geometry axis first second drivers driven)
    (built : problem.chain.Built) (posed : problem.Posed assignment) :
    geometry.constraint.entries.length = 2 ∧
      ((∀ entry ∈ geometry.constraint.entries, entry.Takes assignment 0) ↔
        axis.shadow (locate assignment first problem.request.frameA) =
          axis.shadow (locate assignment second problem.request.frameB)) := by
  obtain ⟨a, b, jointsA, jointsB, matched⟩ := linkage.constraint
  have links : ∀ offset ∈ problem.offsets, ∀ index ∈ axis.inPlane,
      (offset.component index).Defined assignment :=
    fun offset member index _ => posed.links offset member index
  have known := posed.joints
  rw [linkage.legs] at known
  have left : Visible axis.inPlane assignment first problem.request.frameA :=
    visible_of_leg built (.inl ⟨(congrArg Prod.fst linkage.legs).symm, rfl⟩) links
      (fun joint member => known joint (List.mem_append_left _ member))
      fun joint member other motion =>
        linkage.turns joint (List.mem_append_left _ member) other motion ▸ axis.keeps_inPlane
  have right : Visible axis.inPlane assignment second problem.request.frameB :=
    visible_of_leg built (.inr ⟨(congrArg Prod.snd linkage.legs).symm, rfl⟩) links
      (fun joint member => known joint (List.mem_append_right _ member))
      fun joint member other motion =>
        linkage.turns joint (List.mem_append_right _ member) other motion ▸ axis.keeps_inPlane
  rw [← jointsA] at left ⊢
  rw [← jointsB] at right ⊢
  obtain ⟨point, entries, takes⟩ := takes_mismatchInPlane matched left right
  refine ⟨congrArg List.length entries, ?_⟩
  rw [entries, List.forall_mem_cons, List.forall_mem_singleton, ← sub_eq_zero]
  generalize axis.shadow _ - axis.shadow _ = mismatch at takes
  constructor
  · rintro ⟨x, y⟩
    exact Complex.ext (takes.x.unique x) (takes.y.unique y)
  · rintro rfl
    exact ⟨takes.x, takes.y⟩

theorem spans_of_planar (planar : problem.request.topology.IsPlanar)
    (built : problem.chain.Built) (posed : problem.Posed assignment)
    (solved : problem.solve = .ok geometry) :
    ∃ a b, problem.chain.branches problem.request.frameA.body problem.request.frameB.body =
      .ok (a, b) ∧ problem.Spans a b geometry := by
  obtain ⟨axis, _, _, _, _, _, linkage⟩ := exists_planar planar solved
  obtain ⟨length, _⟩ := linkage.closed_iff built posed
  obtain ⟨_, listing⟩ := reads_solve solved
  cases listing with
  | spans branched spans => exact ⟨_, _, branched, spans⟩
  | couples couples =>
      -- what couples two joints has one equation only
      obtain ⟨expr, same⟩ := couples.constraint
      simp [same, Tensor.ofExpr] at length

/-- When the constraint of a planar loop is zero, its two frames meet in the plane of the axis. They
are at the same place in space just if the links of both branches add up to the same height, which
they do if all of them are in planes of the axis. -/
theorem meets_of_closed (planar : problem.request.topology.IsPlanar)
    (built : problem.chain.Built) (solved : problem.solve = .ok geometry)
    (posed : problem.Posed assignment)
    (closed : ∀ entry ∈ geometry.constraint.entries, entry.Takes assignment 0) :
    ∃ axis, problem.axis? = some axis ∧ geometry.constraint.entries.length = 2 ∧
      (∀ index ∈ axis.inPlane, problem.MeetsIn assignment index) ∧
      ((∀ index, problem.MeetsIn assignment index) ↔
        rise assignment axis problem.legs.1 problem.request.frameA =
          rise assignment axis problem.legs.2 problem.request.frameB) ∧
      (problem.Flat assignment axis → ∀ index, problem.MeetsIn assignment index) := by
  obtain ⟨axis, first, second, drivers, driven, plane, linkage⟩ := exists_planar planar solved
  obtain ⟨length, meeting⟩ := linkage.closed_iff built posed
  have shadows := meeting.mp closed
  obtain ⟨a, b, branched, spans⟩ := spans_of_planar planar built posed solved
  have meets (index) := meetsIn_iff built posed branched spans index
  have flatten (flat : problem.Flat assignment axis) :
      rise assignment axis first problem.request.frameA =
        rise assignment axis second problem.request.frameB := by
    have legs := linkage.legs
    rw [rise_of_flat flat (by simp +contextual [legs]) problem.frameA_mem_offsets,
      rise_of_flat flat (by simp +contextual [legs]) problem.frameB_mem_offsets]
  rw [linkage.legs] at meets ⊢
  have within : ∀ index ∈ axis.inPlane, problem.MeetsIn assignment index := by
    intro index member
    rw [meets]
    rcases Axis.mem_inPlane.mp member with rfl | rfl
    · exact congrArg Complex.re shadows
    · exact congrArg Complex.im shadows
  suffices all : (∀ index, problem.MeetsIn assignment index) ↔
      rise assignment axis first problem.request.frameA =
        rise assignment axis second problem.request.frameB from
    ⟨axis, plane, length, within, all, fun flat => all.mpr (flatten flat)⟩
  rw [← height_locate fun joint member => linkage.turns joint (List.mem_append_left _ member),
    ← height_locate fun joint member => linkage.turns joint (List.mem_append_right _ member)]
  constructor
  · exact fun all => (meets _).mp (all axis.apart)
  · intro same index
    rcases axis.inPlane_or_apart index with member | rfl
    · exact within index member
    · exact (meets _).mpr same

namespace Parallelogram

open Sample

/-- A point at the given height. -/
noncomputable def point (distance height : ℝ) : Tensor RealNumber :=
  .ofColumn [.num ⟨distance⟩, .zero, .num ⟨height⟩]

noncomputable def crank : Joint RealNumber := ⟨"crank", .revolute .z, coordinate 1, none, along 0⟩

noncomputable def coupler : Joint RealNumber :=
  ⟨"coupler", .revolute .z, coordinate 2, some ⟨0⟩, along 1⟩

noncomputable def rocker (height : ℝ) : Joint RealNumber :=
  ⟨"rocker", .revolute .z, coordinate 3, none, point 1 height⟩

/-- Four links of length one, two of them at heights. -/
noncomputable def linkage (first second : ℝ) : Problem RealNumber where
  chain := ⟨[crank, coupler, rocker second]⟩
  request := ⟨"parallelogram", .fourBar .positive, ⟨"a", some ⟨1⟩, point 1 first⟩,
    ⟨"b", some ⟨2⟩, along 1⟩, [⟨0⟩], [⟨1⟩, ⟨2⟩]⟩

variable (first second : ℝ)

theorem built : (linkage first second).chain.Built := by
  have one : (Chain.empty : Chain RealNumber).add crank = .ok (⟨0⟩, ⟨[crank]⟩) := rfl
  have two : (⟨[crank]⟩ : Chain RealNumber).add coupler = .ok (⟨1⟩, ⟨[crank, coupler]⟩) := rfl
  have three : (⟨[crank, coupler]⟩ : Chain RealNumber).add (rocker second) =
      .ok (⟨2⟩, ⟨[crank, coupler, rocker second]⟩) := rfl
  exact ((Chain.Built.empty.add one).add two).add three

theorem legs : (linkage first second).legs = ([crank, coupler], [rocker second]) := rfl

theorem takes_point (distance height : ℝ) (index : Fin 3) :
    ((point distance height).component index).Takes atRest
      (if index = 0 then distance else if index = 2 then height else 0) := by
  fin_cases index
  · exact (Expr.takes_num _ _).mpr rfl
  · exact Expr.takes_zero
  · exact (Expr.takes_num _ _).mpr rfl

theorem posed : (linkage first second).Posed atRest where
  links := by
    intro offset member index
    have listed : offset ∈ [along 0, along 1, point 1 second, point 1 first, along 1] := member
    simp only [List.mem_cons, List.not_mem_nil, or_false] at listed
    rcases listed with rfl | rfl | rfl | rfl | rfl
    · exact (takes_along _ index).defined
    · exact (takes_along _ index).defined
    · exact (takes_point _ _ index).defined
    · exact (takes_point _ _ index).defined
    · exact (takes_along _ index).defined
  joints := fun _ _ => rfl

theorem height_point (distance height : ℝ) :
    Axis.z.height ((point distance height).vectorIn atRest) = height :=
  (takes_point distance height 2).valueIn_eq

theorem height_along (distance : ℝ) : Axis.z.height ((along distance).vectorIn atRest) = 0 :=
  (takes_along distance 2).valueIn_eq

theorem rises : rise atRest .z [crank, coupler] (linkage first second).request.frameA = first ∧
    rise atRest .z [rocker second] (linkage first second).request.frameB = second := by
  simp [rise, Joint.rise, crank, coupler, rocker, linkage, height_along, height_point]

theorem shadow_point (distance height : ℝ) :
    (point distance height).shadowIn atRest .z = distance :=
  Complex.ext (takes_point distance height 0).valueIn_eq (takes_point distance height 1).valueIn_eq

theorem closed {geometry : Geometry RealNumber}
    (solved : (linkage first second).solve = .ok geometry) :
    ∀ entry ∈ geometry.constraint.entries, entry.Takes atRest 0 := by
  have planar : (linkage first second).request.topology.IsPlanar := trivial
  obtain ⟨axis, one, two, drivers, driven, plane, planar⟩ := exists_planar planar solved
  obtain rfl : Axis.z = axis := Option.some.inj plane
  obtain ⟨rfl, rfl⟩ := Prod.mk.inj (planar.legs.symm.trans (legs first second))
  rw [(planar.closed_iff (built first second) (posed first second)).2]
  have left : (Placement.behind atRest [crank, coupler]).Planar .z _ _ :=
    (Placement.Planar.start.revolute (show crank.motion = .revolute .z from rfl)).revolute
      (show coupler.motion = .revolute .z from rfl)
  have right : (Placement.behind atRest [rocker second]).Planar .z _ _ :=
    Placement.Planar.start.revolute (show (rocker second).motion = .revolute .z from rfl)
  rw [shadow_locate left, shadow_locate right]
  simp [crank, coupler, rocker, linkage, shadowIn_along, shadow_point, Coordinate.valueIn, atRest]

end Parallelogram

theorem parallelogram_meets : ∃ geometry, (Parallelogram.linkage 1 1).solve = .ok geometry ∧
    (∀ entry ∈ geometry.constraint.entries, entry.Takes Sample.atRest 0) ∧
      ∀ index, (Parallelogram.linkage 1 1).MeetsIn Sample.atRest index := by
  obtain ⟨geometry, solved⟩ : ∃ geometry, (Parallelogram.linkage 1 1).solve = .ok geometry :=
    ⟨_, rfl⟩
  have closed := Parallelogram.closed 1 1 solved
  have planar : (Parallelogram.linkage 1 1).request.topology.IsPlanar := trivial
  obtain ⟨axis, plane, _, _, meets, _⟩ := meets_of_closed planar (Parallelogram.built 1 1) solved
    (Parallelogram.posed 1 1) closed
  obtain rfl : Axis.z = axis := Option.some.inj plane
  obtain ⟨first, second⟩ := Parallelogram.rises 1 1
  exact ⟨_, solved, closed, meets.mpr (first.trans second.symm)⟩

/-- With one link above the others, the parallelogram is accepted, and its frames do not meet where
its constraint is zero. -/
theorem parallelogram_misses : ∃ geometry, (Parallelogram.linkage 0 1).solve = .ok geometry ∧
    (∀ entry ∈ geometry.constraint.entries, entry.Takes Sample.atRest 0) ∧
      ¬(Parallelogram.linkage 0 1).MeetsIn Sample.atRest 2 := by
  obtain ⟨geometry, solved⟩ : ∃ geometry, (Parallelogram.linkage 0 1).solve = .ok geometry :=
    ⟨_, rfl⟩
  refine ⟨_, solved, Parallelogram.closed 0 1 solved, fun meets => ?_⟩
  have posed := Parallelogram.posed 0 1
  have planar : (Parallelogram.linkage 0 1).request.topology.IsPlanar := trivial
  obtain ⟨a, b, branched, spans⟩ := spans_of_planar planar (Parallelogram.built 0 1) posed solved
  have heights : Axis.z.height (locate Sample.atRest [Parallelogram.crank, Parallelogram.coupler] _) =
      Axis.z.height (locate Sample.atRest [Parallelogram.rocker 1] _) :=
    (meetsIn_iff (Parallelogram.built 0 1) posed branched spans 2).mp meets
  obtain ⟨first, second⟩ := Parallelogram.rises 0 1
  rw [height_locate (by simp [Parallelogram.crank, Parallelogram.coupler]),
    height_locate (by simp [Parallelogram.rocker]), first, second] at heights
  exact zero_ne_one heights

end Problem

end Loop

end Mechanism
