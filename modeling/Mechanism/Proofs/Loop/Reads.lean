import Mechanism.Proofs.Loop.Closure
import Mechanism.Proofs.Tensor.Reads

/-!
What the closed form of a loop reads: the atoms of its links, and the coordinates that it is given
in terms of.
-/

namespace Mechanism

variable {κ : Type} [Scalar κ] {allowed : Atom → Prop}

open Mechanism.Expr

/-! ### Points in the plane -/

namespace PlanePoint

structure ReadsOnly (allowed : Atom → Prop) (point : PlanePoint κ) : Prop where
  x : point.x.ReadsOnly allowed
  y : point.y.ReadsOnly allowed

namespace ReadsOnly

variable {p q : PlanePoint κ} (first : p.ReadsOnly allowed) (second : q.ReadsOnly allowed)
  {factor : Expr κ}

include first

theorem length : p.length.ReadsOnly allowed :=
  readsOnly_apply (readsOnly_plus (readsOnly_times first.x first.x)
    (readsOnly_times first.y first.y)) .sqrt

theorem lengthSquared : p.lengthSquared.ReadsOnly allowed :=
  readsOnly_plus (readsOnly_times first.x first.x) (readsOnly_times first.y first.y)

theorem angle : p.angle.ReadsOnly allowed := readsOnly_angleOf first.y first.x

theorem perpendicular : p.perpendicular.ReadsOnly allowed := ⟨readsOnly_negate first.y, first.x⟩

theorem scale (reads : factor.ReadsOnly allowed) : (p.scale factor).ReadsOnly allowed :=
  ⟨readsOnly_times first.x reads, readsOnly_times first.y reads⟩

theorem rotate {angle : Expr κ} (reads : angle.ReadsOnly allowed) :
    (p.rotate angle).ReadsOnly allowed := by
  have cosine : angle.cos.ReadsOnly allowed := readsOnly_apply reads .cos
  have sine : angle.sin.ReadsOnly allowed := readsOnly_apply reads .sin
  exact ⟨readsOnly_minus (readsOnly_times first.x cosine) (readsOnly_times first.y sine),
    readsOnly_plus (readsOnly_times first.x sine) (readsOnly_times first.y cosine)⟩

include second

theorem add : (p + q).ReadsOnly allowed :=
  ⟨readsOnly_plus first.x second.x, readsOnly_plus first.y second.y⟩

theorem sub : (p - q).ReadsOnly allowed :=
  ⟨readsOnly_minus first.x second.x, readsOnly_minus first.y second.y⟩

theorem dot : (p.dot q).ReadsOnly allowed :=
  readsOnly_plus (readsOnly_times first.x second.x) (readsOnly_times first.y second.y)

end ReadsOnly

end PlanePoint

theorem Circle.readsOnly_intersection (first second : Circle κ)
    (center : first.center.ReadsOnly allowed) (radius : first.radius.ReadsOnly allowed)
    (otherCenter : second.center.ReadsOnly allowed) (otherRadius : second.radius.ReadsOnly allowed)
    (sign : κ) : (first.intersection second sign).ReadsOnly allowed := by
  have between := otherCenter.sub center
  have distance := readsOnly_apply between.lengthSquared .sqrt
  have along := readsOnly_dividedBy
    (readsOnly_plus (readsOnly_minus (readsOnly_square radius) (readsOnly_square otherRadius))
      between.lengthSquared) (readsOnly_times (readsOnly_number (Scalar.ofInt 2)) distance)
  have height := readsOnly_apply (readsOnly_minus (readsOnly_square radius) (readsOnly_square along))
    .sqrt
  exact (center.add (between.scale (readsOnly_dividedBy along distance))).add
    (between.perpendicular.scale
      (readsOnly_times (readsOnly_number sign) (readsOnly_dividedBy height distance)))

/-! ### Frames of a chain -/

namespace Tensor

def EntriesRead (allowed : Atom → Prop) (tensor : Tensor κ) : Prop :=
  ∀ entry ∈ tensor.entries, entry.ReadsOnly allowed

variable {left right tensor result : Tensor κ}

theorem EntriesRead.mono (reads : tensor.EntriesRead allowed) {more : Atom → Prop}
    (le : ∀ atom, allowed atom → more atom) : tensor.EntriesRead more :=
  fun entry member => (reads entry member).mono le

theorem entriesRead_iff : tensor.EntriesRead allowed ↔ ∀ atom ∈ tensor.atoms, allowed atom := by
  constructor
  · intro reads atom member
    obtain ⟨entry, among, occurs⟩ := mem_atoms.mp member
    exact reads entry among atom occurs
  · exact fun reads entry among atom occurs => reads atom (mem_atoms.mpr ⟨entry, among, occurs⟩)

theorem EntriesRead.component (reads : tensor.EntriesRead allowed) (index : Nat) :
    (tensor.component index).ReadsOnly allowed := by
  rw [Tensor.component]
  cases found : tensor.entries[index]? with
  | none => exact readsOnly_zero
  | some entry => exact reads entry (List.mem_of_getElem? found)

theorem mem_atoms_of_component {index : Nat} {atom : Atom}
    (occurs : atom ∈ (tensor.component index).occurrences) : atom ∈ tensor.atoms :=
  (entriesRead_iff.mpr fun _ member => member).component index atom occurs

theorem EntriesRead.part (reads : tensor.EntriesRead allowed) (row column : Nat) :
    (tensor.part row column).ReadsOnly allowed := by
  rw [part_eq]
  exact reads.component _

theorem EntriesRead.multiply (first : left.EntriesRead allowed) (second : right.EntriesRead allowed) :
    (left.multiply right).EntriesRead allowed := by
  intro entry member
  rw [Tensor.multiply, entries_build] at member
  obtain ⟨place, _, rfl⟩ := List.mem_map.mp member
  refine readsOnly_sum (List.forall_mem_map.mpr fun inner _ => ?_)
  exact readsOnly_times (first.part _ _) (second.part _ _)

theorem EntriesRead.zipWith {combine : Expr κ → Expr κ → Expr κ}
    (combined : ∀ {one other : Expr κ}, one.ReadsOnly allowed → other.ReadsOnly allowed →
      (combine one other).ReadsOnly allowed)
    (first : left.EntriesRead allowed) (second : right.EntriesRead allowed) :
    ∀ entry ∈ List.zipWith combine left.entries right.entries, entry.ReadsOnly allowed := by
  intro entry member
  obtain ⟨index, bound, rfl⟩ := List.getElem_of_mem member
  rw [List.getElem_zipWith]
  exact combined (first _ (List.getElem_mem _)) (second _ (List.getElem_mem _))

theorem EntriesRead.sub (first : left.EntriesRead allowed) (second : right.EntriesRead allowed)
    (subtracted : left.sub right = .ok result) : result.EntriesRead allowed := by
  unfold Tensor.sub Tensor.zipWith at subtracted
  split at subtracted
  · cases subtracted
    exact EntriesRead.zipWith readsOnly_minus first second
  · cases subtracted

theorem EntriesRead.select (reads : tensor.EntriesRead allowed) {indices : List Nat}
    (selected : tensor.select indices = .ok result) : result.EntriesRead allowed := by
  obtain ⟨entries, found, same⟩ := bind_eq_ok.mp selected
  cases same
  intro entry member
  have each := Simplifier.mapM_eq_ok found
  obtain ⟨place, bound, rfl⟩ := List.getElem_of_mem member
  have inside : place < indices.length := each.length_eq ▸ bound
  exact reads _ (List.mem_of_getElem? (entryAt_eq_ok.mp (each.get inside bound)).2)

end Tensor

namespace Pose

structure ReadsOnly (allowed : Atom → Prop) (pose : Pose κ) : Prop where
  position : pose.position.EntriesRead allowed
  rotation : pose.rotation.EntriesRead allowed

variable {pose : Pose κ}

theorem readsOnly_start : (start : Pose κ).ReadsOnly allowed := by
  constructor <;> intro entry member
  · rw [List.eq_of_mem_replicate member]
    exact readsOnly_zero
  · obtain ⟨index, _, rfl⟩ := List.mem_map.mp member
    split
    · exact readsOnly_one
    · exact readsOnly_zero

theorem ReadsOnly.locate (reads : pose.ReadsOnly allowed) {offset : Tensor κ}
    (apart : offset.EntriesRead allowed) : (pose.locate offset).EntriesRead allowed :=
  Tensor.EntriesRead.zipWith readsOnly_plus reads.position (reads.rotation.multiply apart)

theorem readsOnly_rotation (axis : Axis) {angle : Expr κ} (reads : angle.ReadsOnly allowed) :
    (axis.rotation angle).EntriesRead allowed := by
  have cosine : angle.cos.ReadsOnly allowed := readsOnly_apply reads .cos
  have sine : angle.sin.ReadsOnly allowed := readsOnly_apply reads .sin
  have back : (-angle.sin).ReadsOnly allowed := readsOnly_negate sine
  cases axis <;>
    simp [Tensor.EntriesRead, Axis.rotation, cosine, sine, back, readsOnly_zero, readsOnly_one]

theorem readsOnly_slide (direction : Direction κ) {distance : Expr κ}
    (reads : distance.ReadsOnly allowed) : (slide direction distance).EntriesRead allowed := by
  intro entry member
  obtain ⟨component, among, rfl⟩ := List.mem_map.mp member
  obtain ⟨number, _, rfl⟩ := List.mem_map.mp among
  exact readsOnly_times (readsOnly_number _) reads

theorem ReadsOnly.moveBy (reads : pose.ReadsOnly allowed) {joint : Joint κ}
    (anchor : joint.anchor.EntriesRead allowed) (coordinate : allowed joint.coordinate.atom) :
    (pose.moveBy joint).ReadsOnly allowed := by
  have q : (joint.coordinate.positionExpr : Expr κ).ReadsOnly allowed :=
    readsOnly_atom.mpr coordinate
  have anchored := reads.locate anchor
  unfold Pose.moveBy
  cases joint.motion with
  | revolute axis => exact ⟨anchored, reads.rotation.multiply (readsOnly_rotation axis q)⟩
  | prismatic direction =>
      have moved : Pose.ReadsOnly allowed ⟨pose.locate joint.anchor, pose.rotation⟩ :=
        ⟨anchored, reads.rotation⟩
      exact ⟨moved.locate (readsOnly_slide direction q), reads.rotation⟩

theorem readsOnly_behind {joints : List (Joint κ)}
    (each : ∀ joint ∈ joints, joint.anchor.EntriesRead allowed ∧ allowed joint.coordinate.atom) :
    (joints.foldl moveBy start).ReadsOnly allowed := by
  suffices from_ : ∀ pose : Pose κ, pose.ReadsOnly allowed →
      (joints.foldl moveBy pose).ReadsOnly allowed from from_ start readsOnly_start
  induction joints with
  | nil => exact fun pose reads => reads
  | cons head tail ih =>
      rw [List.forall_mem_cons] at each
      exact fun pose reads => ih each.2 _ (reads.moveBy each.1.1 each.1.2)

/-- A position of three components, and a square that turns them. -/
structure Spatial (pose : Pose κ) : Prop where
  position_shape : pose.position.shape = .vector 3
  position_length : pose.position.entries.length = 3
  rotation_shape : pose.rotation.shape = .matrix 3 3

theorem Spatial.locate (spatial : pose.Spatial) {offset : Tensor κ}
    (shape : offset.shape = .vector 3) :
    (pose.locate offset).shape = .vector 3 ∧ (pose.locate offset).entries.length = 3 := by
  refine ⟨spatial.position_shape, ?_⟩
  simp [Pose.locate, Tensor.sumEntries, Tensor.multiply, Tensor.rows, Tensor.columns,
    spatial.rotation_shape, spatial.position_length, shape, Shape.rows, Shape.columns]

theorem Spatial.moveBy (spatial : pose.Spatial) {joint : Joint κ}
    (shape : joint.anchor.shape = .vector 3) : (pose.moveBy joint).Spatial := by
  obtain ⟨position, length⟩ := spatial.locate shape
  unfold Pose.moveBy
  cases joint.motion with
  | revolute axis =>
      refine ⟨position, length, ?_⟩
      simp [Tensor.multiply, Tensor.build, Tensor.rows, Tensor.columns, spatial.rotation_shape,
        Axis.shape_rotation, Shape.rows, Shape.columns, Shape.ofDimensions]
  | prismatic direction =>
      have anchored : Pose.Spatial ⟨pose.locate joint.anchor, pose.rotation⟩ :=
        ⟨position, length, spatial.rotation_shape⟩
      obtain ⟨position, length⟩ :=
        anchored.locate (rfl : (slide direction joint.coordinate.positionExpr).shape = .vector 3)
      exact ⟨position, length, spatial.rotation_shape⟩

theorem spatial_behind {joints : List (Joint κ)}
    (shapes : ∀ joint ∈ joints, joint.anchor.shape = .vector 3) :
    (joints.foldl moveBy start).Spatial := by
  suffices from_ : ∀ pose : Pose κ, pose.Spatial → (joints.foldl moveBy pose).Spatial from
    from_ start ⟨rfl, rfl, rfl⟩
  induction joints with
  | nil => exact fun pose spatial => spatial
  | cons head tail ih =>
      rw [List.forall_mem_cons] at shapes
      exact fun pose spatial => ih shapes.2 _ (spatial.moveBy shapes.1)

end Pose

namespace Loop

/-! ### Closed forms -/

theorem FourBar.reads_follow (bars : FourBar κ) (crankPivot : bars.crankPivot.ReadsOnly allowed)
    (crank : bars.crank.ReadsOnly allowed) (coupler : bars.coupler.ReadsOnly allowed)
    (rockerPivot : bars.rockerPivot.ReadsOnly allowed) (rocker : bars.rocker.ReadsOnly allowed)
    (sign : κ) {crankAngle : Expr κ} (reads : crankAngle.ReadsOnly allowed) :
    (bars.follow sign crankAngle).1.ReadsOnly allowed ∧
      (bars.follow sign crankAngle).2.ReadsOnly allowed := by
  have pin := crankPivot.add (crank.rotate reads)
  have tip := Circle.readsOnly_intersection ⟨_, _⟩ ⟨_, _⟩ pin coupler.length
    rockerPivot rocker.length sign
  exact ⟨readsOnly_minus (readsOnly_minus (tip.sub pin).angle coupler.angle) reads,
    readsOnly_minus (tip.sub rockerPivot).angle rocker.angle⟩

theorem PivotedSlider.reads_reach (link : PivotedSlider κ) {target : PlanePoint κ}
    (offset : link.offset.ReadsOnly allowed) (direction : link.direction.ReadsOnly allowed)
    (goal : target.ReadsOnly allowed) :
    (link.reach target).1.ReadsOnly allowed ∧ (link.reach target).2.ReadsOnly allowed := by
  have along := offset.dot direction
  have travel := readsOnly_plus (readsOnly_negate along) (readsOnly_apply (readsOnly_plus
    (readsOnly_minus (readsOnly_square along) offset.lengthSquared) goal.lengthSquared) .sqrt)
  exact ⟨travel, readsOnly_minus goal.angle (offset.add (direction.scale travel)).angle⟩

theorem SlidingRod.reads_reach (link : SlidingRod κ) {target : PlanePoint κ}
    (direction : link.direction.ReadsOnly allowed) (rod : link.rod.ReadsOnly allowed) (sign : κ)
    (goal : target.ReadsOnly allowed) :
    (link.reach sign target).1.ReadsOnly allowed ∧
      (link.reach sign target).2.ReadsOnly allowed := by
  have along := goal.dot direction
  have ahead := readsOnly_apply (readsOnly_plus (readsOnly_minus (readsOnly_square along)
    goal.lengthSquared) rod.lengthSquared) .sqrt
  have travel := readsOnly_plus along (readsOnly_times (readsOnly_number sign) ahead)
  exact ⟨travel, readsOnly_minus (goal.sub (direction.scale travel)).angle rod.angle⟩

theorem TwoLinkArm.reads_reach (arm : TwoLinkArm κ) {target : PlanePoint κ}
    (pivot : arm.pivot.ReadsOnly allowed) (first : arm.first.ReadsOnly allowed)
    (second : arm.second.ReadsOnly allowed) (sign : κ) (goal : target.ReadsOnly allowed) :
    (arm.reach sign target).1.ReadsOnly allowed ∧ (arm.reach sign target).2.ReadsOnly allowed := by
  have knee := Circle.readsOnly_intersection ⟨_, _⟩ ⟨_, _⟩ pivot first.length
    goal second.length sign
  have angle := readsOnly_minus (knee.sub pivot).angle first.angle
  exact ⟨angle, readsOnly_minus (readsOnly_minus (goal.sub knee).angle second.angle) angle⟩

theorem Leg.reads_reach {leg : Leg κ} {target : Tensor κ} {solution : List (Expr κ)}
    (offset : ∀ apart, leg.offset = some apart → apart.ReadsOnly allowed)
    (extension : leg.extension.ReadsOnly allowed) (goal : target.EntriesRead allowed)
    (reached : leg.reach target = .ok solution) : ∀ expr ∈ solution, expr.ReadsOnly allowed := by
  simp only [reach, bind_eq_ok] at reached
  obtain ⟨x, foundX, y, foundY, z, foundZ, rest⟩ := reached
  have entry {index : Nat} {expr : Expr κ} (found : target.entryAt index = .ok expr) :=
    goal expr (List.mem_of_getElem? (Tensor.entryAt_eq_ok.mp found).2)
  have yaw := readsOnly_angleOf (readsOnly_negate (entry foundZ)) (entry foundX)
  split at rest
  · rename_i apart given
    cases rest
    have radial := readsOnly_minus (readsOnly_apply (readsOnly_plus
      (readsOnly_square (entry foundX)) (readsOnly_square (entry foundZ))) .sqrt)
      (offset apart given)
    have length := readsOnly_apply (readsOnly_plus (readsOnly_square radial)
      (readsOnly_square (entry foundY))) .sqrt
    have tilt := readsOnly_angleOf (entry foundY) radial
    simpa using ⟨readsOnly_minus length extension, yaw, tilt⟩
  · simp only [bind_eq_ok] at rest
    obtain ⟨length, measured, same⟩ := rest
    cases same
    have far : length.ReadsOnly allowed := by
      rw [Tensor.norm, Tensor.dot] at measured
      split at measured
      · cases measured
        exact readsOnly_apply (readsOnly_sum
          (Tensor.EntriesRead.zipWith readsOnly_times goal goal)) .sqrt
      · cases measured
    have tilt := readsOnly_apply (readsOnly_dividedBy (entry foundY) far) .asin
    simpa using ⟨readsOnly_minus far extension, yaw, tilt⟩

/-! ### Accepted loops -/

def Among (allowed : Atom → Prop) (coordinates : List Coordinate) (atom : Atom) : Prop :=
  allowed atom ∨ ∃ coordinate ∈ coordinates, coordinate.atom = atom

/-- The constraint reads allowed atoms and the coordinates, and the solution reads allowed atoms and
the independent ones. -/
structure Geometry.ReadsOnly (allowed : Atom → Prop) (geometry : Geometry κ) : Prop where
  constraint : geometry.constraint.EntriesRead
    (Among allowed (geometry.independent ++ geometry.dependent))
  solution : ∀ expr ∈ geometry.solution, expr.ReadsOnly (Among allowed geometry.independent)

namespace Problem

variable {problem : Problem κ} {geometry : Geometry κ} {a b : List JointId} {id : JointId}
  {axis : Axis} {point : PlanePoint κ} {coordinates : List Coordinate}

theorem reads_position (allowed : Atom → Prop) {ids others : List JointId} {u v : List Coordinate}
    (parted : problem.partition ids others = .ok (u, v)) (member : id ∈ ids) {expr : Expr κ}
    (found : problem.position id = .ok expr) : expr.ReadsOnly (Among allowed u) := by
  obtain ⟨joint, known, same⟩ := bind_eq_ok.mp found
  cases same
  refine readsOnly_atom.mpr (.inr ⟨joint.coordinate, ?_, rfl⟩)
  rw [(partition_eq_ok parted).1]
  exact List.mem_map_of_mem (List.mem_filterMap.mpr ⟨id, member, joint_eq_ok.mp known⟩)

theorem reads_inPlane {offset : Tensor κ} (reads : offset.EntriesRead allowed)
    (found : inPlane axis offset = .ok point) : point.ReadsOnly (Among allowed coordinates) := by
  obtain rfl := inPlane_eq_ok found
  exact ⟨(reads.component _).mono fun _ => .inl, (reads.component _).mono fun _ => .inl⟩

theorem reads_directionInPlane (found : problem.directionInPlane id axis = .ok point) :
    point.ReadsOnly allowed := by
  obtain ⟨_, direction, _, _, rfl⟩ := directionInPlane_eq_ok found
  have numbers : (Tensor.ofColumn (direction.toList.map Expr.number)).EntriesRead allowed :=
    List.forall_mem_map.mpr fun _ _ => readsOnly_number _
  exact ⟨numbers.component _, numbers.component _⟩

structure Links (problem : Problem κ) (allowed : Atom → Prop) (a b : List JointId) : Prop where
  legs : problem.legs = (problem.jointsOf a, problem.jointsOf b)
  offsets : ∀ offset ∈ problem.offsets, offset.EntriesRead allowed

namespace Links

variable (links : problem.Links allowed a b)

include links

theorem joint {joint : Joint κ} (member : joint ∈ problem.jointsOf a ++ problem.jointsOf b) :
    joint.anchor.EntriesRead allowed := by
  apply links.offsets
  rw [Problem.offsets, links.legs]
  exact List.mem_append_left _ (List.mem_map_of_mem member)

theorem anchor (member : id ∈ a ++ b) (found : problem.anchorInPlane axis id = .ok point) :
    point.ReadsOnly (Among allowed coordinates) := by
  obtain ⟨joint, known, projected⟩ := bind_eq_ok.mp found
  refine reads_inPlane (links.joint ?_) projected
  rw [jointsOf, jointsOf, ← List.filterMap_append]
  exact List.mem_filterMap.mpr ⟨id, member, joint_eq_ok.mp known⟩

theorem sliderOffset (member : id ∈ a ++ b) (found : problem.sliderOffset axis id = .ok point) :
    point.ReadsOnly (Among allowed coordinates) := by
  simp only [Problem.sliderOffset, bind_eq_ok] at found
  obtain ⟨_, foundAnchor, _, foundTip, same⟩ := found
  cases same
  exact (links.anchor member foundAnchor).add
    (reads_inPlane (links.offsets _ problem.frameB_mem_offsets) foundTip)

theorem located {branch : List JointId} {frame : Frame κ}
    (joints : ∀ joint ∈ problem.jointsOf branch, joint ∈ problem.jointsOf a ++ problem.jointsOf b)
    (within : ∀ joint ∈ problem.jointsOf branch, joint.coordinate ∈ coordinates)
    (member : frame.position ∈ problem.offsets) {position : Tensor κ}
    (found : problem.chain.positionOf branch frame = .ok position) :
    position.EntriesRead (Among allowed coordinates) := by
  obtain ⟨-, rfl⟩ := positionOf_eq_ok found
  refine (Pose.readsOnly_behind fun joint among => ⟨?_, ?_⟩).locate
    ((links.offsets _ member).mono fun _ => .inl)
  · exact (links.joint (joints joint among)).mono fun _ => .inl
  · exact .inr ⟨_, within joint among, rfl⟩

theorem mismatch (within : ∀ joint ∈ problem.jointsOf a ++ problem.jointsOf b,
      joint.coordinate ∈ coordinates) {whole : Tensor κ}
    (matched : problem.mismatch a b = .ok whole) :
    whole.EntriesRead (Among allowed coordinates) := by
  simp only [Problem.mismatch, bind_eq_ok, ofChain_eq_ok, ofAlgebra_eq_ok] at matched
  obtain ⟨first, foundFirst, second, foundSecond, subtracted⟩ := matched
  rw [List.forall_mem_append] at within
  refine (links.located ?_ within.1 problem.frameA_mem_offsets foundFirst).sub
    (links.located ?_ within.2 problem.frameB_mem_offsets foundSecond) subtracted
  · exact fun joint => List.mem_append_left _
  · exact fun joint => List.mem_append_right _

theorem mismatchInPlane (within : ∀ joint ∈ problem.jointsOf a ++ problem.jointsOf b,
      joint.coordinate ∈ coordinates) {constraint : Tensor κ}
    (matched : problem.mismatchInPlane axis a b = .ok constraint) :
    constraint.EntriesRead (Among allowed coordinates) := by
  simp only [Problem.mismatchInPlane, bind_eq_ok, ofAlgebra_eq_ok] at matched
  obtain ⟨whole, found, selected⟩ := matched
  exact (links.mismatch within found).select selected

end Links

/-- The coordinates are those of the joints on the branches, and the constraint is the difference of
the positions at their ends, or what is seen of it in a plane. -/
structure Spans (problem : Problem κ) (a b : List JointId) (geometry : Geometry κ) : Prop where
  coordinates : ∃ drivers followers,
    problem.partition drivers followers = .ok (geometry.independent, geometry.dependent) ∧
      (drivers ++ followers).Perm (a ++ b)
  constraint : problem.mismatch a b = .ok geometry.constraint ∨
    ∃ axis, problem.mismatchInPlane axis a b = .ok geometry.constraint

theorem within_partition {ids others : List JointId} {u v : List Coordinate}
    (parted : problem.partition ids others = .ok (u, v)) (covers : (ids ++ others).Perm (a ++ b))
    {joint : Joint κ} (member : joint ∈ problem.jointsOf a ++ problem.jointsOf b) :
    joint.coordinate ∈ u ++ v := by
  obtain ⟨rfl, rfl⟩ := partition_eq_ok parted
  rw [jointsOf, jointsOf, ← List.filterMap_append] at member
  obtain ⟨id, among, known⟩ := List.mem_filterMap.mp member
  rw [← List.map_append, jointsOf, jointsOf, ← List.filterMap_append]
  exact List.mem_map_of_mem (List.mem_filterMap.mpr ⟨id, covers.mem_iff.mpr among, known⟩)

section

variable (links : problem.Links allowed a b)

include links

theorem reads_fourBar {posture : Posture} (solved : problem.fourBar posture a b = .ok geometry) :
    geometry.ReadsOnly allowed ∧ problem.Spans a b geometry := by
  simp only [fourBar, bind_eq_ok, Prod.exists, twoJoints_eq_ok, oneJoint_eq_ok] at solved
  obtain ⟨crank, coupler, rfl, rocker, rfl, axis, common, u, v, parted, _, crankPivot, _, crankLink,
    _, couplerLink, _, rockerPivot, _, rockerLink, _, angle, constraint, matched, same⟩ := solved
  cases same
  obtain ⟨first, second⟩ := FourBar.reads_follow ⟨_, _, _, _, _⟩
    (links.anchor (by simp) crankPivot)
    (links.anchor (by simp) crankLink)
    (reads_inPlane (links.offsets _ problem.frameA_mem_offsets) couplerLink)
    (links.anchor (by simp) rockerPivot)
    (reads_inPlane (links.offsets _ problem.frameB_mem_offsets) rockerLink) posture.sign
    (reads_position allowed parted (by simp) angle)
  have covers : ([crank] ++ [coupler, rocker]).Perm ([crank, coupler] ++ [rocker]) := .refl _
  exact ⟨⟨links.mismatchInPlane (fun joint => within_partition parted covers) matched,
    by simpa using ⟨first, second⟩⟩, ⟨_, _, parted, covers⟩, .inr ⟨_, matched⟩⟩

theorem reads_fourBarTrans (solved : problem.fourBarTrans a b = .ok geometry) :
    geometry.ReadsOnly allowed ∧ problem.Spans a b geometry := by
  simp only [fourBarTrans, bind_eq_ok, Prod.exists, twoJoints_eq_ok] at solved
  obtain ⟨crank, coupler, rfl, pivot, slider, rfl, axis, common, _, foundDirection, u, v, parted, _,
    foundCrankAngle, _, foundCouplerAngle, _, foundCrankPivot, _, foundCrank, _, foundCoupler, _,
    foundPivot, _, foundOffset, constraint, matched, same⟩ := solved
  cases same
  have crankAngle := reads_position allowed parted (by simp) foundCrankAngle
  have couplerAngle := reads_position allowed parted (by simp) foundCouplerAngle
  have goal := (((links.anchor (by simp) foundCrankPivot).add
    ((links.anchor (by simp) foundCrank).rotate crankAngle)).add
      ((reads_inPlane (links.offsets _ problem.frameA_mem_offsets) foundCoupler).rotate
        (readsOnly_plus crankAngle couplerAngle))).sub (links.anchor (by simp) foundPivot)
  obtain ⟨first, second⟩ := PivotedSlider.reads_reach ⟨_, _⟩
    (links.sliderOffset (by simp) foundOffset) (reads_directionInPlane foundDirection) goal
  have covers : ([crank, coupler] ++ [slider, pivot]).Perm ([crank, coupler] ++ [pivot, slider]) :=
    .append_left _ (.swap ..)
  exact ⟨⟨links.mismatchInPlane (fun joint => within_partition parted covers) matched,
    by simpa using ⟨first, second⟩⟩, ⟨_, _, parted, covers⟩, .inr ⟨_, matched⟩⟩

theorem reads_threeBarTrans (solved : problem.threeBarTrans a b = .ok geometry) :
    geometry.ReadsOnly allowed ∧ problem.Spans a b geometry := by
  simp only [threeBarTrans, bind_eq_ok, Prod.exists, twoJoints_eq_ok, oneJoint_eq_ok] at solved
  obtain ⟨crank, rfl, pivot, slider, rfl, axis, common, _, foundDirection, u, v, parted, _,
    foundCrankAngle, _, foundCrankPivot, _, foundCrank, _, foundPivot, _, foundOffset, constraint,
    matched, same⟩ := solved
  cases same
  have goal := ((links.anchor (by simp) foundCrankPivot).add
    ((reads_inPlane (links.offsets _ problem.frameA_mem_offsets) foundCrank).rotate
      (reads_position allowed parted (by simp) foundCrankAngle))).sub
        (links.anchor (by simp) foundPivot)
  obtain ⟨first, second⟩ := PivotedSlider.reads_reach ⟨_, _⟩
    (links.sliderOffset (by simp) foundOffset) (reads_directionInPlane foundDirection) goal
  have covers : ([crank] ++ [slider, pivot]).Perm ([crank] ++ [pivot, slider]) :=
    .append_left _ (.swap ..)
  exact ⟨⟨links.mismatchInPlane (fun joint => within_partition parted covers) matched,
    by simpa using ⟨first, second⟩⟩, ⟨_, _, parted, covers⟩, .inr ⟨_, matched⟩⟩

theorem reads_crankSlider {posture : Posture}
    (solved : problem.crankSlider posture a b = .ok geometry) :
    geometry.ReadsOnly allowed ∧ problem.Spans a b geometry := by
  simp only [crankSlider, bind_eq_ok, Prod.exists, twoJoints_eq_ok, oneJoint_eq_ok] at solved
  obtain ⟨crank, rfl, slider, rod, rfl, axis, common, _, foundDirection, u, v, parted, _,
    foundCrankAngle, _, foundCrankPivot, _, foundCrank, _, foundSlider, _, foundRodPivot, _, foundRod,
    constraint, matched, same⟩ := solved
  cases same
  have goal := (((links.anchor (by simp) foundCrankPivot).add
    ((reads_inPlane (links.offsets _ problem.frameA_mem_offsets) foundCrank).rotate
      (reads_position allowed parted (by simp) foundCrankAngle))).sub
        (links.anchor (by simp) foundSlider)).sub (links.anchor (by simp) foundRodPivot)
  obtain ⟨first, second⟩ := SlidingRod.reads_reach ⟨_, _⟩ (reads_directionInPlane foundDirection)
    (reads_inPlane (links.offsets _ problem.frameB_mem_offsets) foundRod) posture.sign goal
  have covers : ([crank] ++ [slider, rod]).Perm ([crank] ++ [slider, rod]) := .refl _
  exact ⟨⟨links.mismatchInPlane (fun joint => within_partition parted covers) matched,
    by simpa using ⟨first, second⟩⟩, ⟨_, _, parted, covers⟩, .inr ⟨_, matched⟩⟩

theorem reads_steering {posture : Posture} (solved : problem.steering posture a b = .ok geometry) :
    geometry.ReadsOnly allowed ∧ problem.Spans a b geometry := by
  simp only [steering, bind_eq_ok, Prod.exists, noJoint_eq_ok, threeJoints_eq_ok] at solved
  obtain ⟨_, rfl, rack, tieRod, knuckle, rfl, axis, common, _, foundDirection, u, v, parted, _,
    foundTravel, _, foundRack, _, foundTieRod, _, foundKingpin, _, foundKnuckle, _, foundTip,
    constraint, matched, same⟩ := solved
  cases same
  have pivot := ((links.anchor (by simp) foundRack).add
    ((reads_directionInPlane foundDirection).scale
      (reads_position allowed parted (by simp) foundTravel))).add
        (links.anchor (by simp) foundTieRod)
  obtain ⟨first, second⟩ := TwoLinkArm.reads_reach ⟨_, _, _⟩ pivot
    (links.anchor (by simp) foundKnuckle)
    (reads_inPlane (links.offsets _ problem.frameB_mem_offsets) foundTip) posture.sign
    (reads_inPlane (links.offsets _ problem.frameA_mem_offsets) foundKingpin)
  have covers : ([rack] ++ [tieRod, knuckle]).Perm ([] ++ [rack, tieRod, knuckle]) := .refl _
  exact ⟨⟨links.mismatchInPlane (fun joint => within_partition parted covers) matched,
    by simpa using ⟨first, second⟩⟩, ⟨_, _, parted, covers⟩, .inr ⟨_, matched⟩⟩

theorem Links.reads_leg {offsetAllowed : Bool} {tilt length : JointId} {leg : Leg κ}
    (member : tilt ∈ a ++ b) (other : length ∈ a ++ b)
    (found : problem.leg offsetAllowed tilt length = .ok leg) :
    (∀ apart, leg.offset = some apart → apart.ReadsOnly (Among allowed coordinates)) ∧
      leg.extension.ReadsOnly (Among allowed coordinates) := by
  simp only [Problem.leg, bind_eq_ok, joint_eq_ok, check_eq_ok, ofAlgebra_eq_ok] at found
  obtain ⟨tiltJoint, knownTilt, lengthJoint, knownLength, -, offset, foundOffset, -, -, start,
    foundStart, tip, foundTip, same⟩ := found
  have anchor {id : JointId} {joint : Joint κ} (known : problem.chain.joint? id = some joint)
      (member : id ∈ a ++ b) : joint.anchor.EntriesRead (Among allowed coordinates) := by
    refine (links.joint ?_).mono fun _ => .inl
    rw [jointsOf, jointsOf, ← List.filterMap_append]
    exact List.mem_filterMap.mpr ⟨id, member, known⟩
  have entry {tensor : Tensor κ} (reads : tensor.EntriesRead (Among allowed coordinates))
      {expr : Expr κ} (found : tensor.entryAt 0 = .ok expr) :=
    reads expr (List.mem_of_getElem? (Tensor.entryAt_eq_ok.mp found).2)
  cases same
  constructor
  · intro apart given
    simp only at given
    split at given
    · cases given
      exact entry (anchor knownTilt member) foundOffset
    · cases given
  · exact readsOnly_plus (entry (anchor knownLength other) foundStart)
      (entry ((links.offsets _ problem.frameB_mem_offsets).mono fun _ => .inl) foundTip)

theorem reads_hexapod {offsetAllowed : Bool}
    (solved : problem.hexapod offsetAllowed a b = .ok geometry) :
    geometry.ReadsOnly allowed ∧ problem.Spans a b geometry := by
  simp only [hexapod, bind_eq_ok, threeJoints_eq_ok, check_eq_ok, Prod.exists] at solved
  obtain ⟨_, yaw, tilt, length, rfl, _, _, _, _, _, _, direction, _, rest⟩ := solved
  split at rest
  · simp only [check_eq_ok, bind_eq_ok, Prod.exists, ofChain_eq_ok, ofAlgebra_eq_ok, joint_eq_ok]
      at rest
    obtain ⟨_, leg, foundLeg, u, v, parted, platform, foundPlatform, joint, known, target, subtracted,
      solution, reached, constraint, matched, same⟩ := rest
    cases same
    obtain ⟨offset, extension⟩ := links.reads_leg (by simp) (by simp) foundLeg
    have within : ∀ joint ∈ problem.jointsOf a, joint.coordinate ∈ u := by
      intro joint member
      rw [(partition_eq_ok parted).1]
      exact List.mem_map_of_mem member
    have start : joint.anchor.EntriesRead (Among allowed u) := by
      refine (links.joint (List.mem_append_right _ ?_)).mono fun _ => .inl
      exact List.mem_filterMap.mpr ⟨yaw, by simp, known⟩
    have goal := (links.located (fun joint => List.mem_append_left _) within
      problem.frameA_mem_offsets foundPlatform).sub start subtracted
    have covers : (a ++ [length, yaw, tilt]).Perm (a ++ [yaw, tilt, length]) :=
      .append_left _ ((List.Perm.swap ..).trans (.cons _ (.swap ..)))
    exact ⟨⟨links.mismatch (fun joint => within_partition parted covers) matched,
      Leg.reads_reach offset extension goal reached⟩, ⟨_, _, parted, covers⟩, .inl matched⟩
  · obtain ⟨_, refused, _⟩ := bind_eq_ok.mp rest
    exact absurd refused unsupported_ne_ok

end

theorem reads_coupled {independent : List Coordinate} {dependent : Coordinate} {driven : Expr κ}
    (reads : driven.ReadsOnly (Among allowed independent)) :
    (coupled independent dependent driven).ReadsOnly allowed := by
  constructor
  · refine List.forall_mem_singleton.mpr (readsOnly_minus (readsOnly_atom.mpr ?_) (reads.mono ?_))
    · exact .inr ⟨dependent, by simp [coupled], rfl⟩
    · rintro atom (given | ⟨coordinate, member, rfl⟩)
      · exact .inl given
      · exact .inr ⟨coordinate, by simp [coupled, member], rfl⟩
  · exact List.forall_mem_singleton.mpr reads

/-- The coordinates of a coupling are those of the joints that the request lists, with one that
follows. -/
structure Couples (problem : Problem κ) (geometry : Geometry κ) : Prop where
  independent : problem.coordinates problem.request.independent = .ok geometry.independent
  dependent : ∃ follower joint, problem.request.dependent = [follower] ∧
    follower ∉ problem.request.independent ∧ problem.chain.joint? follower = some joint ∧
      geometry.dependent = [joint.coordinate]
  constraint : ∃ expr, geometry.constraint = .ofExpr expr

theorem coupling_eq_ok {accepted : Nat → Bool} {independent : List Coordinate}
    {dependent : Coordinate} (found : problem.coupling accepted = .ok (independent, dependent)) :
    accepted problem.request.independent.length = true ∧
      ∀ driven, problem.Couples (coupled independent dependent driven) := by
  unfold coupling at found
  simp only at found
  split at found
  · rename_i follower only
    simp only [check_eq_ok, bind_eq_ok, Bool.not_eq_true, Bool.not_eq_false_eq_eq_true,
      joint_eq_ok] at found
    obtain ⟨allowed, apart, u, coordinates, joint, known, same⟩ := found
    cases same
    exact ⟨allowed, fun driven =>
      ⟨coordinates, ⟨follower, joint, only, by simpa using apart, known, rfl⟩, _, rfl⟩⟩
  · exact absurd found unsupported_ne_ok

theorem reads_transmission {ratio : κ} (solved : problem.transmission ratio = .ok geometry) :
    geometry.ReadsOnly allowed ∧ problem.Couples geometry ∧
      problem.request.independent.length = 1 := by
  simp only [transmission, check_eq_ok, bind_eq_ok, Prod.exists] at solved
  obtain ⟨-, independent, dependent, found, rest⟩ := solved
  obtain ⟨single, couples⟩ := coupling_eq_ok found
  split at rest
  · rename_i driver
    cases rest
    refine ⟨reads_coupled (readsOnly_times (readsOnly_number ratio) (readsOnly_atom.mpr ?_)),
      couples _, beq_iff_eq.mp single⟩
    exact .inr ⟨driver, List.mem_singleton_self _, rfl⟩
  · exact absurd rest unsupported_ne_ok

theorem reads_explicitJoint {expression : Expr κ} (reads : expression.ReadsOnly allowed)
    (solved : problem.explicitJoint expression = .ok geometry) :
    geometry.ReadsOnly allowed ∧ problem.Couples geometry := by
  simp only [explicitJoint, check_eq_ok, bind_eq_ok, Prod.exists] at solved
  obtain ⟨independent, dependent, found, -, same⟩ := solved
  cases same
  exact ⟨reads_coupled (reads.mono fun _ => .inl), (coupling_eq_ok found).2 _⟩

/-- The joints of an accepted loop are those on its branches, or as they are listed. -/
inductive Listing (problem : Problem κ) (geometry : Geometry κ) : Prop where
  | spans {a b : List JointId} (branched : problem.chain.branches problem.request.frameA.body
      problem.request.frameB.body = .ok (a, b)) (spans : problem.Spans a b geometry)
  | couples (couples : problem.Couples geometry) (once : problem.request.independent.length = 1 ∨
      ∃ expression, problem.request.topology = .explicitJoint expression)

/-- The atoms that a loop is given by: those of its expression, or of its links. -/
def given (problem : Problem κ) : List Atom :=
  match problem.request.topology with
  | .transmission _ => []
  | .explicitJoint expression => expression.occurrences
  | _ => problem.offsets.flatMap Tensor.atoms

theorem reads_solve (solved : problem.solve = .ok geometry) :
    geometry.ReadsOnly (· ∈ problem.given) ∧ problem.Listing geometry := by
  obtain ⟨a, b, branched, legs⟩ := exists_branches solved
  simp only [solve, branched, bind_eq_ok, ofChain_eq_ok, Except.ok.injEq, exists_eq_left'] at solved
  have links (linked : problem.given = problem.offsets.flatMap Tensor.atoms) :
      problem.Links (· ∈ problem.given) a b := by
    refine ⟨legs, fun offset member => Tensor.entriesRead_iff.mpr fun atom reads => ?_⟩
    rw [linked]
    exact List.mem_flatMap.mpr ⟨offset, member, reads⟩
  have spanned {reads : Prop} (both : reads ∧ problem.Spans a b geometry) :
      reads ∧ problem.Listing geometry := both.imp_right (.spans branched)
  unfold given at links ⊢
  split at solved <;> rename_i topology <;> rw [topology] at links ⊢
  · exact spanned (reads_fourBar (links rfl) solved)
  · exact spanned (reads_fourBarTrans (links rfl) solved)
  · exact spanned (reads_threeBarTrans (links rfl) solved)
  · exact spanned (reads_crankSlider (links rfl) solved)
  · exact spanned (reads_steering (links rfl) solved)
  · exact spanned (reads_hexapod (links rfl) solved)
  · exact spanned (reads_hexapod (links rfl) solved)
  · obtain ⟨reads, couples, single⟩ := reads_transmission solved
    exact ⟨reads, .couples couples (.inl single)⟩
  · obtain ⟨reads, couples⟩ := reads_explicitJoint (fun atom occurs => occurs) solved
    exact ⟨reads, .couples couples (.inr ⟨_, topology⟩)⟩

/-! ### A constraint has an entry for every place -/

theorem mismatch_spatial {whole : Tensor κ}
    (anchors : ∀ joint ∈ problem.chain.joints, joint.anchor.shape = .vector 3)
    (matched : problem.mismatch a b = .ok whole) :
    whole.shape = .vector 3 ∧ whole.entries.length = 3 := by
  have ends (ids : List JointId) {frame : Frame κ} (shape : frame.position.shape = .vector 3) :=
    (Pose.spatial_behind fun joint (member : joint ∈ problem.jointsOf ids) =>
      anchors joint (mem_joints_of_mem_jointsOf member)).locate shape
  simp only [mismatch, bind_eq_ok, ofChain_eq_ok, ofAlgebra_eq_ok] at matched
  obtain ⟨left, foundLeft, right, foundRight, subtracted⟩ := matched
  obtain ⟨shapeLeft, rfl⟩ := positionOf_eq_ok foundLeft
  obtain ⟨shapeRight, rfl⟩ := positionOf_eq_ok foundRight
  have left : (located (problem.jointsOf a) problem.request.frameA).entries.length = 3 :=
    (ends a shapeLeft).2
  have right : (located (problem.jointsOf b) problem.request.frameB).entries.length = 3 :=
    (ends b shapeRight).2
  refine ⟨?_, by rw [Tensor.length_sub subtracted, left, right]; rfl⟩
  unfold Tensor.sub Tensor.zipWith at subtracted
  split at subtracted
  · cases subtracted
    exact (ends a shapeLeft).1
  · cases subtracted

theorem Listing.length_constraint (listing : problem.Listing geometry)
    (anchors : ∀ joint ∈ problem.chain.joints, joint.anchor.shape = .vector 3) :
    geometry.constraint.entries.length = geometry.constraint.shape.size := by
  cases listing with
  | spans _ spans =>
      rcases spans.constraint with matched | ⟨axis, matched⟩
      · obtain ⟨shape, length⟩ := mismatch_spatial anchors matched
        rw [shape, length]
        rfl
      · simp only [mismatchInPlane, bind_eq_ok, ofAlgebra_eq_ok, Tensor.select] at matched
        obtain ⟨_, _, entries, _, same⟩ := matched
        rw [← Except.ok.inj same]
        simp [Tensor.ofColumn, Shape.column]
  | couples couples =>
      obtain ⟨expr, same⟩ := couples.constraint
      rw [same]
      rfl

end Problem

end Loop

end Mechanism
