import Mechanism.Proofs.Loop.Structure

/-!
What it means that the closed form of a loop closes it: the constraint is zero when the solution
is put in the place of the dependent coordinates. This can be shown where the dependent
coordinates simply have the values of the solution, so that the constraint is a matter of real
numbers.
-/

namespace Mechanism

/-- The given atoms have the given values, and all others the values that they had. -/
def Assignment.placing (assignment : Assignment) (atoms : List Atom) (values : List ℝ) :
    Assignment :=
  fun atom => ((atoms.zip values).lookup atom).or (assignment atom)

theorem Assignment.placing_of_not_mem {assignment : Assignment} {atoms : List Atom}
    {values : List ℝ} {atom : Atom} (absent : atom ∉ atoms) :
    assignment.placing atoms values atom = assignment atom := by
  have missing : (atoms.zip values).lookup atom = none := by
    rw [List.lookup_eq_none_iff]
    rintro ⟨other, value⟩ member
    exact bne_iff_ne.mpr fun same => absent (same ▸ (List.of_mem_zip member).1)
  rw [placing, missing, Option.none_or]

theorem Assignment.placing_getElem {assignment : Assignment} {atoms : List Atom} {values : List ℝ}
    (nodup : atoms.Nodup) {position : Nat} {atom : Atom} {value : ℝ}
    (placed : atoms[position]? = some atom) (valued : values[position]? = some value) :
    assignment.placing atoms values atom = some value := by
  suffices found : (atoms.zip values).lookup atom = some value by
    rw [placing, found, Option.some_or]
  induction atoms generalizing values position with
  | nil => simp at placed
  | cons head tail ih =>
      obtain ⟨fresh, nodup⟩ := List.nodup_cons.mp nodup
      cases values with
      | nil => simp at valued
      | cons first rest =>
          cases position with
          | zero =>
              cases placed
              cases valued
              simp
          | succ position =>
              have apart : (atom == head) = false :=
                beq_false_of_ne fun same => fresh (same ▸ List.mem_of_getElem? placed)
              rw [List.zip_cons_cons, List.lookup_cons, apart]
              exact ih nodup placed valued

variable {κ : Type} [Scalar κ]

section

variable [Exact κ]

theorem Expr.realValue?_congr {left right : Assignment} {expr : Expr κ}
    (agree : ∀ symbol ∈ expr.occurrences, left symbol = right symbol) :
    expr.realValue? left = expr.realValue? right := by
  apply Option.ext
  intro value
  constructor
  · exact Expr.carries_of_agree expr (fun symbol reads _ known => agree symbol reads ▸ known) value
  · exact Expr.carries_of_agree expr (fun symbol reads _ known => agree symbol reads ▸ known) value

theorem lookup_zip {assignment : Assignment} {exprs : List (Expr κ)} {values : List ℝ}
    (takes : List.Forall₂ (Expr.Takes assignment) exprs values) (atoms : List Atom) (atom : Atom) :
    Option.Rel (Expr.Takes assignment) ((atoms.zip exprs).lookup atom)
      ((atoms.zip values).lookup atom) := by
  induction takes generalizing atoms with
  | nil => simp
  | cons head _ ih =>
      cases atoms with
      | nil => simp
      | cons first rest =>
          simp only [List.zip_cons_cons, List.lookup_cons]
          cases atom == first with
          | true => exact .some head
          | false => exact ih rest

end

namespace Loop

namespace Geometry

def closure (geometry : Geometry κ) : Atom → Option (Expr κ) :=
  fun atom => ((geometry.dependent.map Coordinate.atom).zip geometry.solution).lookup atom

def posed (geometry : Geometry κ) (assignment : Assignment) (values : List ℝ) : Assignment :=
  assignment.placing (geometry.dependent.map Coordinate.atom) values

variable [Exact κ]

/-- The constraint has the given number of components, and all of them are zero when the solution
is put in the place of the dependent coordinates. -/
def Closes (geometry : Geometry κ) (assignment : Assignment) (count : Nat) : Prop :=
  geometry.constraint.entries.length = count ∧
    ∀ entry ∈ (geometry.constraint.substitute geometry.closure).entries, entry.Takes assignment 0

def ClosedAt (geometry : Geometry κ) (assignment : Assignment) (values : List ℝ) : Prop :=
  values.length = geometry.dependent.length ∧
    ∀ entry ∈ geometry.constraint.entries, entry.Takes (geometry.posed assignment values) 0

theorem closes_of_closedAt {geometry : Geometry κ} {assignment : Assignment} {values : List ℝ}
    {count : Nat} (length : geometry.constraint.entries.length = count)
    (takes : List.Forall₂ (Expr.Takes assignment) geometry.solution values)
    (closed : geometry.ClosedAt assignment values) : geometry.Closes assignment count := by
  refine ⟨length, ?_⟩
  intro entry member
  obtain ⟨original, among, rfl⟩ := List.mem_map.mp member
  refine Expr.carries_substitute geometry.closure original ?_ 0 (closed.2 original among)
  intro symbol _ value known
  rw [Expr.takes_atom, posed, Assignment.placing] at known
  have related := lookup_zip takes (geometry.dependent.map Coordinate.atom) symbol
  rw [Expr.replacementOf, closure]
  generalize ((geometry.dependent.map Coordinate.atom).zip geometry.solution).lookup symbol = put
    at related ⊢
  generalize ((geometry.dependent.map Coordinate.atom).zip values).lookup symbol = number
    at related known
  cases related with
  | some placed =>
      rw [Option.some_or, Option.some.injEq] at known
      rwa [Option.getD_some, ← known]
  | none => rwa [Option.getD_none, Expr.takes_atom]

end Geometry

namespace Problem

/-- A loop that is accepted, with a different coordinate on each dependent joint, and with links
that do not depend on where these joints are. -/
structure Solved (problem : Problem κ) (geometry : Geometry κ) : Prop where
  built : problem.chain.Built
  solved : problem.solve = .ok geometry
  nodup : (geometry.dependent.map Coordinate.atom).Nodup
  separate : ∀ driven ∈ geometry.dependent, ∀ driver ∈ geometry.independent,
    driven.atom ≠ driver.atom
  rigid : ∀ offset ∈ problem.offsets, ∀ driven ∈ geometry.dependent, driven.atom ∉ offset.atoms

theorem frameA_mem_offsets (problem : Problem κ) :
    problem.request.frameA.position ∈ problem.offsets :=
  List.mem_append_right _ List.mem_cons_self

theorem frameB_mem_offsets (problem : Problem κ) :
    problem.request.frameB.position ∈ problem.offsets :=
  List.mem_append_right _ (List.mem_cons_of_mem _ List.mem_cons_self)

variable [Exact κ]

theorem visible_of_leg {problem : Problem κ} {seen : Set (Fin 3)} {assignment : Assignment}
    (built : problem.chain.Built) {joints : List (Joint κ)} {frame : Frame κ}
    (leg : joints = problem.legs.1 ∧ frame = problem.request.frameA ∨
      joints = problem.legs.2 ∧ frame = problem.request.frameB)
    (defined : ∀ offset ∈ problem.offsets, ∀ index ∈ seen,
      (offset.component index).Defined assignment)
    (known : ∀ joint ∈ joints, (assignment joint.coordinate.atom).isSome)
    (keeps : ∀ joint ∈ joints, ∀ axis, joint.motion = .revolute axis → axis.Keeps κ seen) :
    Visible seen assignment joints frame := by
  have within : ∀ joint ∈ joints, joint.anchor ∈ problem.offsets := by
    intro joint member
    apply List.mem_append_left
    apply List.mem_map_of_mem
    rcases leg with ⟨rfl, _⟩ | ⟨rfl, _⟩
    · exact List.mem_append_left _ member
    · exact List.mem_append_right _ member
  have tip : frame.position ∈ problem.offsets := by
    rcases leg with ⟨_, rfl⟩ | ⟨_, rfl⟩
    · exact problem.frameA_mem_offsets
    · exact problem.frameB_mem_offsets
  refine ⟨fun joint member => ?_, defined _ tip⟩
  refine ⟨built.anchor_shape joint (problem.mem_joints_of_mem_legs ?_),
    defined _ (within joint member), keeps joint member, known joint member⟩
  rcases leg with ⟨rfl, _⟩ | ⟨rfl, _⟩
  · exact .inl member
  · exact .inr member

/-- What is seen of the links has a value, and so have the independent coordinates. -/
structure Measured (problem : Problem κ) (geometry : Geometry κ) (seen : Set (Fin 3))
    (assignment : Assignment) : Prop where
  offsets : ∀ offset ∈ problem.offsets, ∀ index ∈ seen, (offset.component index).Defined assignment
  driven : ∀ driver ∈ geometry.independent, (assignment driver.atom).isSome

variable {problem : Problem κ} {geometry : Geometry κ} {seen : Set (Fin 3)}
  {assignment : Assignment} {values : List ℝ}

theorem Measured.transfer (measured : problem.Measured geometry seen assignment)
    {other : Geometry κ} (same : other.independent = geometry.independent) :
    problem.Measured other seen assignment :=
  ⟨measured.offsets, same ▸ measured.driven⟩

theorem Measured.takes_driver (measured : problem.Measured geometry seen assignment)
    {driver : Coordinate} (member : driver ∈ geometry.independent) :
    (driver.positionExpr : Expr κ).Takes assignment (driver.valueIn assignment) := by
  obtain ⟨value, known⟩ := Option.isSome_iff_exists.mp (measured.driven driver member)
  rw [Coordinate.positionExpr, Expr.takes_atom, Coordinate.valueIn, known, Option.getD_some]

theorem Measured.takes_point {axis : Axis} (measured : problem.Measured geometry axis.inPlane assignment)
    {offset : Tensor κ} (member : offset ∈ problem.offsets) :
    (PlanePoint.ofOffset axis offset).Takes assignment (offset.shadowIn assignment axis) :=
  PlanePoint.takes_ofOffset (measured.offsets offset member)

namespace Solved

theorem realValue?_posed (settled : problem.Solved geometry) {offset : Tensor κ}
    (member : offset ∈ problem.offsets) (index : Nat) :
    (offset.component index).realValue? (geometry.posed assignment values) =
      (offset.component index).realValue? assignment := by
  apply Expr.realValue?_congr
  intro symbol reads
  apply Assignment.placing_of_not_mem
  intro among
  obtain ⟨driven, present, rfl⟩ := List.mem_map.mp among
  apply settled.rigid offset member driven present
  rw [Tensor.mem_atoms]
  cases found : offset.entries[index]? with
  | none =>
      rw [Tensor.component, found, Option.getD_none, Expr.zero, Expr.occurrences] at reads
      cases reads
  | some entry =>
      rw [Tensor.component, found, Option.getD_some] at reads
      exact ⟨entry, List.mem_of_getElem? found, reads⟩

theorem vectorIn_posed (settled : problem.Solved geometry) {offset : Tensor κ}
    (member : offset ∈ problem.offsets) :
    offset.vectorIn (geometry.posed assignment values) = offset.vectorIn assignment := by
  funext index
  rw [Tensor.vectorIn, Tensor.vectorIn, Expr.valueIn, Expr.valueIn, settled.realValue?_posed member]

theorem shadowIn_posed (settled : problem.Solved geometry) {offset : Tensor κ}
    (member : offset ∈ problem.offsets) (axis : Axis) :
    offset.shadowIn (geometry.posed assignment values) axis = offset.shadowIn assignment axis := by
  rw [Tensor.shadowIn, Tensor.shadowIn, settled.vectorIn_posed member]

omit [Exact κ] in
theorem driver_posed (settled : problem.Solved geometry) {driver : Coordinate}
    (member : driver ∈ geometry.independent) :
    geometry.posed assignment values driver.atom = assignment driver.atom := by
  apply Assignment.placing_of_not_mem
  intro among
  obtain ⟨driven, present, same⟩ := List.mem_map.mp among
  exact settled.separate driven present driver member same

omit [Exact κ] in
theorem valueIn_driver (settled : problem.Solved geometry) {driver : Coordinate}
    (member : driver ∈ geometry.independent) :
    driver.valueIn (geometry.posed assignment values) = driver.valueIn assignment := by
  rw [Coordinate.valueIn, Coordinate.valueIn, settled.driver_posed member]

theorem locate_posed (settled : problem.Solved geometry) {joints : List (Joint κ)}
    (anchors : ∀ joint ∈ joints, joint.anchor ∈ problem.offsets)
    (drivers : ∀ joint ∈ joints, joint.coordinate ∈ geometry.independent) {frame : Frame κ}
    (member : frame.position ∈ problem.offsets) :
    locate (geometry.posed assignment values) joints frame = locate assignment joints frame := by
  rw [locate, locate, settled.vectorIn_posed member, Placement.behind_congr
    (fun joint among => settled.vectorIn_posed (anchors joint among))
    (fun joint among => settled.valueIn_driver (drivers joint among))]

omit [Exact κ] in
theorem valueIn_driven (settled : problem.Solved geometry) (position : Nat) {driven : Coordinate}
    {value : ℝ} (placed : geometry.dependent[position]? = some driven)
    (valued : values[position]? = some value) :
    driven.valueIn (geometry.posed assignment values) = value := by
  have known : geometry.posed assignment values driven.atom = some value :=
    Assignment.placing_getElem settled.nodup
      (by rw [List.getElem?_map, placed, Option.map_some]) valued
  rw [Coordinate.valueIn, known, Option.getD_some]

omit [Exact κ] in
theorem driven_posed (settled : problem.Solved geometry)
    (length : values.length = geometry.dependent.length) {driven : Coordinate}
    (member : driven ∈ geometry.dependent) :
    (geometry.posed assignment values driven.atom).isSome := by
  obtain ⟨position, bound, rfl⟩ := List.getElem_of_mem member
  have inside : position < values.length := length ▸ bound
  have known : geometry.posed assignment values geometry.dependent[position].atom =
      some values[position] :=
    Assignment.placing_getElem settled.nodup (by simp [bound]) (List.getElem?_eq_getElem inside)
  rw [known, Option.isSome_some]

theorem visible_posed (settled : problem.Solved geometry)
    (measured : problem.Measured geometry seen assignment)
    (length : values.length = geometry.dependent.length) {joints : List (Joint κ)} {frame : Frame κ}
    (leg : joints = problem.legs.1 ∧ frame = problem.request.frameA ∨
      joints = problem.legs.2 ∧ frame = problem.request.frameB)
    (coordinates : ∀ joint ∈ joints, joint.coordinate ∈ geometry.independent ∨
      joint.coordinate ∈ geometry.dependent)
    (keeps : ∀ joint ∈ joints, ∀ axis, joint.motion = .revolute axis → axis.Keeps κ seen) :
    Visible seen (geometry.posed assignment values) joints frame := by
  refine visible_of_leg settled.built leg ?_ ?_ keeps
  · intro offset member index visible
    obtain ⟨value, takes⟩ := measured.offsets offset member index visible
    exact ⟨value, (settled.realValue?_posed member index).trans takes⟩
  · intro joint member
    rcases coordinates joint member with driver | driven
    · rw [settled.driver_posed driver]
      exact measured.driven _ driver
    · exact settled.driven_posed length driven

end Solved

/-- A planar loop whose branches and coordinates are the given ones. -/
structure Planar (problem : Problem κ) (geometry : Geometry κ) (axis : Axis)
    (first second drivers driven : List (Joint κ)) : Prop where
  legs : problem.legs = (first, second)
  turns : ∀ joint ∈ first ++ second, ∀ other, joint.motion = .revolute other → axis = other
  independent : geometry.independent = drivers.map Joint.coordinate
  dependent : geometry.dependent = driven.map Joint.coordinate
  covers : ∀ joint ∈ first ++ second, joint ∈ drivers ∨ joint ∈ driven
  constraint : ∃ a b, problem.jointsOf a = first ∧ problem.jointsOf b = second ∧
    problem.mismatchInPlane axis a b = .ok geometry.constraint

omit [Exact κ] in
theorem Planar.driver_mem {axis : Axis} {first second drivers driven : List (Joint κ)}
    (planar : problem.Planar geometry axis first second drivers driven) (joint : Joint κ)
    (member : joint ∈ drivers) : joint.coordinate ∈ geometry.independent := by
  rw [planar.independent]
  exact List.mem_map_of_mem member

omit [Exact κ] in
theorem Planar.anchor_mem_offsets {axis : Axis} {first second drivers driven : List (Joint κ)}
    (planar : problem.Planar geometry axis first second drivers driven) (joint : Joint κ)
    (member : joint ∈ first ++ second) : joint.anchor ∈ problem.offsets := by
  rw [offsets, planar.legs]
  exact List.mem_append_left _ (List.mem_map_of_mem member)

omit [Exact κ] in
theorem Planar.axis?_eq {axis : Axis} {first second drivers driven : List (Joint κ)}
    (planar : problem.Planar geometry axis first second drivers driven) {joint : Joint κ}
    (member : joint ∈ first ++ second) (turns : joint.motion = .revolute axis) :
    problem.axis? = some axis := by
  cases found : problem.axis? with
  | none =>
      rw [axis?, planar.legs] at found
      simpa [turns] using List.findSome?_eq_none_iff.mp found joint member
  | some other =>
      rw [axis?, planar.legs] at found
      obtain ⟨leading, among, same⟩ := List.exists_of_findSome?_eq_some found
      cases motion : leading.motion with
      | revolute _ =>
          rw [motion] at same
          cases same
          rw [planar.turns leading among _ motion]
      | prismatic _ =>
          rw [motion] at same
          cases same

theorem Planar.anchor_posed {axis : Axis} {first second drivers driven : List (Joint κ)}
    (planar : problem.Planar geometry axis first second drivers driven)
    (settled : problem.Solved geometry) (joint : Joint κ) (member : joint ∈ first ++ second) :
    joint.anchor.shadowIn (geometry.posed assignment values) axis =
      joint.anchor.shadowIn assignment axis :=
  settled.shadowIn_posed (planar.anchor_mem_offsets joint member) axis

/-- With the dependent coordinates at the given values, the constraint of a planar loop is the
difference of the positions of the two frames in the plane. -/
theorem Planar.takes {axis : Axis} {first second drivers driven : List (Joint κ)}
    (planar : problem.Planar geometry axis first second drivers driven)
    (settled : problem.Solved geometry)
    (measured : problem.Measured geometry axis.inPlane assignment)
    (length : values.length = geometry.dependent.length) :
    ∃ point : PlanePoint κ, geometry.constraint.entries = [point.x, point.y] ∧
      point.Takes (geometry.posed assignment values)
        (axis.shadow (locate (geometry.posed assignment values) first problem.request.frameA) -
          axis.shadow (locate (geometry.posed assignment values) second problem.request.frameB)) := by
  obtain ⟨a, b, jointsA, jointsB, matched⟩ := planar.constraint
  have coordinates : ∀ joint ∈ first ++ second, joint.coordinate ∈ geometry.independent ∨
      joint.coordinate ∈ geometry.dependent := by
    rw [planar.independent, planar.dependent]
    exact fun joint member => (planar.covers joint member).imp
      (fun among => List.mem_map_of_mem among) (fun among => List.mem_map_of_mem among)
  have keeps : ∀ joint ∈ first ++ second, ∀ other, joint.motion = .revolute other →
      other.Keeps κ axis.inPlane :=
    fun joint member other motion =>
      (planar.turns joint member other motion) ▸ axis.keeps_inPlane
  have left := settled.visible_posed measured length
    (.inl ⟨(congrArg Prod.fst planar.legs).symm, rfl⟩)
    (fun joint member => coordinates joint (List.mem_append_left _ member))
    (fun joint member => keeps joint (List.mem_append_left _ member))
  have right := settled.visible_posed measured length
    (.inr ⟨(congrArg Prod.snd planar.legs).symm, rfl⟩)
    (fun joint member => coordinates joint (List.mem_append_right _ member))
    (fun joint member => keeps joint (List.mem_append_right _ member))
  rw [← jointsA] at left ⊢
  rw [← jointsB] at right ⊢
  exact takes_mismatchInPlane matched left right

theorem Planar.closedAt_iff {axis : Axis} {first second drivers driven : List (Joint κ)}
    (planar : problem.Planar geometry axis first second drivers driven)
    (settled : problem.Solved geometry)
    (measured : problem.Measured geometry axis.inPlane assignment)
    (length : values.length = geometry.dependent.length) :
    geometry.ClosedAt assignment values ↔
      axis.shadow (locate (geometry.posed assignment values) first problem.request.frameA) =
        axis.shadow (locate (geometry.posed assignment values) second problem.request.frameB) := by
  obtain ⟨point, entries, takes⟩ := planar.takes settled measured length
  rw [Geometry.ClosedAt, entries, List.forall_mem_cons, List.forall_mem_singleton,
    ← sub_eq_zero (a := axis.shadow _), Complex.ext_iff]
  constructor
  · rintro ⟨-, x, y⟩
    exact ⟨takes.x.unique x, takes.y.unique y⟩
  · rintro ⟨x, y⟩
    have real := takes.x
    have imaginary := takes.y
    rw [x] at real
    rw [y] at imaginary
    exact ⟨length, real, imaginary⟩

theorem Planar.closes {axis : Axis} {first second drivers driven : List (Joint κ)}
    (planar : problem.Planar geometry axis first second drivers driven)
    (settled : problem.Solved geometry)
    (measured : problem.Measured geometry axis.inPlane assignment)
    (takes : List.Forall₂ (Expr.Takes assignment) geometry.solution values)
    (closed : geometry.ClosedAt assignment values) : geometry.Closes assignment 2 := by
  obtain ⟨point, entries, _⟩ := planar.takes settled measured closed.1
  exact Geometry.closes_of_closedAt (by rw [entries]; rfl) takes closed

end Problem

def Topology.withPosture (posture : Posture) : Topology κ → Topology κ
  | .fourBar _ => .fourBar posture
  | .crankSlider _ => .crankSlider posture
  | .steering _ => .steering posture
  | other => other

def Problem.withPosture (problem : Problem κ) (posture : Posture) : Problem κ :=
  { problem with
    request := { problem.request with topology := problem.request.topology.withPosture posture } }

variable [Exact κ]

theorem Posture.real_sign_sq (posture : Posture) : Exact.real (posture.sign : κ) ^ 2 = 1 := by
  cases posture <;> simp [sign, Exact.real_neg, Exact.real_one]

theorem exists_posture (property : ℝ → Prop) (holds : property 1 ∨ property (-1)) :
    ∃ posture : Posture, property (Exact.real (posture.sign : κ)) := by
  rcases holds with positive | negative
  · exact ⟨.positive, by rwa [Posture.sign, Exact.real_one]⟩
  · exact ⟨.negative, by rwa [Posture.sign, Exact.real_neg, Exact.real_one]⟩

namespace Problem

variable {problem : Problem κ} {geometry : Geometry κ} {assignment : Assignment}
  {agree : List (Expr κ) → List ℝ → Prop}

/-- Whatever values close the loop agree with the solution in one of the postures. -/
def Exhausted (problem : Problem κ) (geometry : Geometry κ) (assignment : Assignment)
    (agree : List (Expr κ) → List ℝ → Prop) : Prop :=
  ∀ values, geometry.ClosedAt assignment values →
    ∃ posture result, (problem.withPosture posture).solve = .ok result ∧
      result.dependent = geometry.dependent ∧ agree result.solution values

theorem exhausted_of_solutions (solution : Posture → Geometry κ → Prop)
    (solvable : ∀ other, ∃ result, (problem.withPosture other).solve = .ok result ∧
      solution other result)
    (following : ∀ other result, solution other result → result.dependent = geometry.dependent)
    (two : geometry.dependent.length = 2)
    (complete : ∀ x y, geometry.ClosedAt assignment [x, y] → ∃ other, ∀ result,
      solution other result → agree result.solution [x, y]) :
    problem.Exhausted geometry assignment agree := by
  intro values closed
  obtain ⟨x, y, rfl⟩ := List.length_eq_two.mp (closed.1.trans two)
  obtain ⟨other, agrees⟩ := complete x y closed
  obtain ⟨result, solved, solves⟩ := solvable other
  exact ⟨other, result, solved, following other result solves, agrees result solves⟩

end Problem

namespace Sample

def coordinate (number : Nat) : Coordinate :=
  ⟨"q", ⟨3 * number, "q", .scalar, .real⟩, ⟨3 * number + 1, "q_d", .scalar, .real⟩,
    ⟨3 * number + 2, "q_dd", .scalar, .real⟩⟩

noncomputable def along (distance : ℝ) : Tensor RealNumber :=
  .ofColumn [.num ⟨distance⟩, .zero, .zero]

def atRest : Assignment := fun _ => some 0

theorem takes_along (distance : ℝ) (index : Fin 3) :
    ((along distance).component index).Takes atRest (if index = 0 then distance else 0) := by
  fin_cases index
  · exact (Expr.takes_num _ _).mpr rfl
  · exact Expr.takes_zero
  · exact Expr.takes_zero

theorem shadowIn_along (distance : ℝ) : (along distance).shadowIn atRest .z = distance := by
  apply Complex.ext
  · exact (takes_along distance 0).valueIn_eq
  · exact (takes_along distance 1).valueIn_eq

theorem not_mem_atoms_along {distance : ℝ} {atom : Atom} : atom ∉ (along distance).atoms := by
  simp [Tensor.mem_atoms, along, Tensor.ofColumn, Expr.zero, Expr.occurrences]

section

variable {problem : Problem RealNumber} {distances : List ℝ}

theorem measured {geometry : Geometry RealNumber} {seen : Set (Fin 3)}
    (straight : problem.offsets = distances.map along) : problem.Measured geometry seen atRest := by
  constructor
  · intro offset member index _
    rw [straight] at member
    obtain ⟨distance, _, rfl⟩ := List.mem_map.mp member
    exact (takes_along distance index).defined
  · intro driver _
    rfl

theorem coordinate_atom_inj {first second : Nat} :
    (coordinate first).atom = (coordinate second).atom ↔ first = second := by
  constructor
  · intro same
    have ids : 3 * first = 3 * second := congrArg (fun atom : Atom => atom.symbol.number) same
    omega
  · exact congrArg fun number => (coordinate number).atom

theorem settled {geometry : Geometry RealNumber} (drivers driven : List Nat)
    (straight : problem.offsets = distances.map along) (built : problem.chain.Built)
    (solved : problem.solve = .ok geometry)
    (independent : geometry.independent = drivers.map coordinate)
    (dependent : geometry.dependent = driven.map coordinate) (nodup : driven.Nodup)
    (disjoint : ∀ number ∈ driven, number ∉ drivers) : problem.Solved geometry where
  built := built
  solved := solved
  nodup := by
    rw [dependent, List.map_map]
    exact nodup.map fun _ _ same => coordinate_atom_inj.mp same
  separate := by
    rw [independent, dependent]
    intro one memberOne two memberTwo same
    obtain ⟨first, among, rfl⟩ := List.mem_map.mp memberOne
    obtain ⟨second, present, rfl⟩ := List.mem_map.mp memberTwo
    obtain rfl := coordinate_atom_inj.mp same
    exact disjoint first among present
  rigid := by
    intro offset member driven _
    rw [straight] at member
    obtain ⟨distance, _, rfl⟩ := List.mem_map.mp member
    exact not_mem_atoms_along

end

noncomputable def ahead : Direction RealNumber := ⟨1, 0, 0⟩

theorem value_tolerance : (Scalar.alignmentTolerance : RealNumber).value = 1 / 10 ^ 12 := by
  change (1 : ℝ) / ((Nat.pow 10 12 : Nat) : Int) = 1 / 10 ^ 12
  norm_num

theorem norm_ahead : ahead.norm = 1 := by
  have sum : (ahead.toList.map fun part => part * part).foldl (· + ·) 0 = (⟨1⟩ : RealNumber) := by
    change (⟨0 + 1 * 1 + 0 * 0 + 0 * 0⟩ : RealNumber) = ⟨1⟩
    norm_num
  rw [Direction.norm, sum]
  exact congrArg RealNumber.mk Real.sqrt_one

theorem long_one : Scalar.isLess (1 : RealNumber) Scalar.alignmentTolerance = false := by
  rw [← Bool.not_eq_true, Exact.isLess_iff]
  change ¬ (1 : ℝ) < (Scalar.alignmentTolerance : RealNumber).value
  rw [value_tolerance]
  norm_num

theorem div_one_eq (number : RealNumber) : number / 1 = number :=
  congrArg RealNumber.mk (div_one number.value)

theorem ahead_in_plane :
    Scalar.isLess Scalar.alignmentTolerance (Scalar.magnitude (ahead.component .z)) = false := by
  rw [← Bool.not_eq_true, Exact.isLess_iff]
  change ¬ (Scalar.alignmentTolerance : RealNumber).value < |0|
  rw [value_tolerance]
  norm_num

theorem normalize_ahead (name : String) :
    Chain.normalize name (.prismatic ahead) = .ok (.prismatic ahead) := by
  simp only [Chain.normalize, norm_ahead, long_one, div_one_eq]
  rfl

theorem axis_ahead : ahead.axis? = some (.x, 1) := by
  have first : ahead.component .x = 1 := rfl
  have misfit : Scalar.magnitude (Scalar.magnitude (1 : RealNumber) - 1) = 0 := by
    change (⟨|(|(1 : ℝ)| - 1)|⟩ : RealNumber) = ⟨0⟩
    norm_num
  have aligned : Scalar.isLess (0 : RealNumber) Scalar.alignmentTolerance = true := by
    rw [Exact.isLess_iff]
    change 0 < (Scalar.alignmentTolerance : RealNumber).value
    rw [value_tolerance]
    norm_num
  have forward : Scalar.isNegative (1 : RealNumber) = false := by
    rw [Scalar.isNegative, ← Bool.not_eq_true, Exact.isLess_iff]
    change ¬ (1 : ℝ) < 0
    norm_num
  simp only [Direction.axis?, norm_ahead, long_one, div_one_eq, Axis.all, List.findSome?_cons, first,
    misfit, aligned, forward, Bool.false_eq_true, ↓reduceIte]

end Sample

end Loop

end Mechanism
