import Mechanism.Proofs.Chain.Kinematics
import Mechanism.Proofs.Loop.Rates
import Mechanism.Proofs.Loop.Reads

/-!
Loops with a complete velocity map. If the joints of a loop have different coordinates and what it
is given by reads no coordinates but independent ones, the constraint is a matter of the listed
coordinates alone, so that the registered map gives all of the velocities that keep it.
-/

namespace Mechanism

variable {κ : Type} [Scalar κ]

/-- The motion begins at the assignment, where the coordinates of the chain change at the given
speeds, and all else stays as it is. -/
structure Chain.Moves (chain : Chain κ) (assignment : Assignment)
    (motion : ℝ → Assignment) (speed : Coordinate → ℝ) : Prop where
  start : motion 0 = assignment
  still : ∀ atom, (∀ joint ∈ chain.joints, joint.coordinate.atom ≠ atom) →
    ∀ time, motion time atom = assignment atom
  known : ∀ joint ∈ chain.joints, ∀ time, (motion time joint.coordinate.atom).isSome
  slopes : ∀ joint ∈ chain.joints,
    HasDerivAt (fun time => joint.coordinate.valueIn (motion time)) (speed joint.coordinate) 0

namespace Loop

namespace Problem

variable {problem : Problem κ} {geometry : Geometry κ} {drivers followers : List JointId}

/-! ### The joints of an accepted loop -/

def MovedBy (problem : Problem κ) (id : JointId) (coordinate : Coordinate) : Prop :=
  ∃ joint, problem.chain.joint? id = some joint ∧ joint.coordinate = coordinate

theorem coordinates_movedBy {ids : List JointId} {coordinates : List Coordinate}
    (found : problem.coordinates ids = .ok coordinates) :
    List.Forall₂ problem.MovedBy ids coordinates := by
  refine (Simplifier.mapM_eq_ok found).imp fun id coordinate moved => ?_
  obtain ⟨joint, known, same⟩ := bind_eq_ok.mp moved
  cases same
  exact ⟨joint, joint_eq_ok.mp known, rfl⟩

theorem mem_of_sameJoints {given expected : List JointId} (same : sameJoints given expected = true)
    (nodup : expected.Nodup) (id : JointId) : id ∈ expected ↔ id ∈ given := by
  simp only [sameJoints, Bool.and_eq_true, beq_iff_eq, List.all_eq_true, List.contains_iff_mem]
    at same
  obtain ⟨length, within⟩ := same
  have among : expected.Subperm (Grouping.distinct given) :=
    nodup.subperm fun id member => Grouping.mem_distinct.mpr (within id member)
  rw [(among.perm_of_length_le length.le).mem_iff, Grouping.mem_distinct]

theorem partition_movedBy {u v : List Coordinate}
    (parted : problem.partition drivers followers = .ok (u, v)) :
    sameJoints problem.request.independent drivers = true ∧
      sameJoints problem.request.dependent followers = true ∧
      List.Forall₂ problem.MovedBy drivers u ∧ List.Forall₂ problem.MovedBy followers v := by
  unfold partition at parted
  simp only at parted
  split at parted
  · exact absurd parted unsupported_ne_ok
  · rename_i driving
    split at parted
    · exact absurd parted unsupported_ne_ok
    · rename_i following
      simp only [bind_eq_ok] at parted
      obtain ⟨u, first, v, second, same⟩ := parted
      cases same
      exact ⟨by simpa using driving, by simpa using following, coordinates_movedBy first,
        coordinates_movedBy second⟩

/-- The coordinates are those of different joints, which are the ones that the request lists. -/
structure Assigns (problem : Problem κ) (geometry : Geometry κ) (drivers followers : List JointId) :
    Prop where
  independent : List.Forall₂ problem.MovedBy drivers geometry.independent
  dependent : List.Forall₂ problem.MovedBy followers geometry.dependent
  nodup : (drivers ++ followers).Nodup
  drives : ∀ id, id ∈ drivers ↔ id ∈ problem.request.independent
  follows : ∀ id, id ∈ followers ↔ id ∈ problem.request.dependent

def ListedOnce (problem : Problem κ) : Prop :=
  ∀ expression, problem.request.topology = .explicitJoint expression →
    problem.request.independent.Nodup

theorem Listing.assigns (listing : problem.Listing geometry) (once : problem.ListedOnce) :
    ∃ drivers followers, problem.Assigns geometry drivers followers := by
  cases listing with
  | spans branched spans =>
      obtain ⟨drivers, followers, parted, covers⟩ := spans.coordinates
      have nodup := covers.nodup_iff.mpr (Chain.nodup_branches branched)
      obtain ⟨driving, following, independent, dependent⟩ := partition_movedBy parted
      exact ⟨drivers, followers, independent, dependent, nodup,
        mem_of_sameJoints driving nodup.of_append_left,
        mem_of_sameJoints following nodup.of_append_right⟩
  | couples couples single =>
      obtain ⟨follower, joint, only, apart, known, dependent⟩ := couples.dependent
      have nodup : problem.request.independent.Nodup := by
        rcases single with single | ⟨expression, topology⟩
        · obtain ⟨driver, alone⟩ := List.length_eq_one_iff.mp single
          rw [alone]
          exact List.nodup_singleton driver
        · exact once expression topology
      refine ⟨problem.request.independent, [follower], coordinates_movedBy couples.independent, ?_,
        ?_, fun _ => .rfl, fun _ => by rw [only]⟩
      · rw [dependent]
        exact .cons ⟨joint, known, rfl⟩ .nil
      · exact nodup.append (List.nodup_singleton _) (by simpa using apart)

theorem MovedBy.of_mem {ids : List JointId} {coordinates : List Coordinate}
    (moved : List.Forall₂ problem.MovedBy ids coordinates) {coordinate : Coordinate}
    (member : coordinate ∈ coordinates) : ∃ id ∈ ids, problem.MovedBy id coordinate := by
  induction moved with
  | nil => cases member
  | cons head _ ih =>
      rcases List.mem_cons.mp member with rfl | later
      · exact ⟨_, List.mem_cons_self, head⟩
      · exact (ih later).imp fun _ found => ⟨List.mem_cons_of_mem _ found.1, found.2⟩

theorem Listing.listed (listing : problem.Listing geometry) :
    (∀ coordinate ∈ geometry.independent,
        ∃ id ∈ problem.request.independent, problem.MovedBy id coordinate) ∧
      ∀ coordinate ∈ geometry.dependent,
        ∃ id ∈ problem.request.dependent, problem.MovedBy id coordinate := by
  cases listing with
  | spans _ spans =>
      obtain ⟨drivers, followers, parted, _⟩ := spans.coordinates
      obtain ⟨driving, following, independent, dependent⟩ := partition_movedBy parted
      simp only [sameJoints, Bool.and_eq_true, List.all_eq_true, List.contains_iff_mem]
        at driving following
      exact ⟨fun coordinate member => (MovedBy.of_mem independent member).imp
          fun id found => ⟨driving.2 id found.1, found.2⟩,
        fun coordinate member => (MovedBy.of_mem dependent member).imp
          fun id found => ⟨following.2 id found.1, found.2⟩⟩
  | couples couples _ =>
      obtain ⟨follower, joint, only, _, known, dependent⟩ := couples.dependent
      refine ⟨fun coordinate => MovedBy.of_mem (coordinates_movedBy couples.independent),
        fun coordinate member => ?_⟩
      rw [dependent, List.mem_singleton] at member
      rw [only]
      exact ⟨follower, List.mem_singleton_self _, joint, known, member.symm⟩

theorem Listing.mem_chain (listing : problem.Listing geometry) {coordinate : Coordinate}
    (member : coordinate ∈ geometry.independent ++ geometry.dependent) :
    ∃ joint ∈ problem.chain.joints, joint.coordinate = coordinate := by
  obtain ⟨independent, dependent⟩ := listing.listed
  rcases List.mem_append.mp member with among | among
  · obtain ⟨_, _, joint, known, same⟩ := independent coordinate among
    exact ⟨joint, List.mem_of_getElem? known, same⟩
  · obtain ⟨_, _, joint, known, same⟩ := dependent coordinate among
    exact ⟨joint, List.mem_of_getElem? known, same⟩

/-! ### Complete loops -/

/-- The joints that are listed have different coordinates. -/
structure Apart (problem : Problem κ) : Prop where
  once : problem.ListedOnce
  positions : ∀ first ∈ problem.request.independent ++ problem.request.dependent,
    ∀ second ∈ problem.request.independent ++ problem.request.dependent, ∀ one other,
      problem.MovedBy first one → problem.MovedBy second other →
        one.position = other.position → first = second

/-- Of the coordinates of the chain, the loop is given by independent ones only. -/
def GivenByDrivers (problem : Problem κ) : Prop :=
  ∀ joint ∈ problem.chain.joints, joint.coordinate.atom ∈ problem.given →
    ∃ id ∈ problem.request.independent, ∃ driver,
      problem.MovedBy id driver ∧ driver.position = joint.coordinate.position

end Problem

/-- The coordinates differ, the constraint reads no other coordinates of the chain, and the solution
reads none but independent ones. -/
structure Geometry.Complete (geometry : Geometry κ) (chain : Chain κ) : Prop where
  distinct : ((geometry.independent ++ geometry.dependent).map Coordinate.position).Nodup
  constraint : ∀ joint ∈ chain.joints, joint.coordinate.atom ∈ geometry.constraint.atoms →
    joint.coordinate.position ∈ (geometry.independent ++ geometry.dependent).map Coordinate.position
  solution : ∀ expr ∈ geometry.solution, ∀ joint ∈ chain.joints,
    joint.coordinate.atom ∈ expr.occurrences →
      joint.coordinate.position ∈ geometry.independent.map Coordinate.position

namespace Problem

variable {problem : Problem κ} {geometry : Geometry κ} {drivers followers : List JointId}

theorem Assigns.distinct (assigns : problem.Assigns geometry drivers followers)
    (apart : problem.Apart) :
    ((geometry.independent ++ geometry.dependent).map Coordinate.position).Nodup := by
  have moved : List.Forall₂ problem.MovedBy (drivers ++ followers)
      (geometry.independent ++ geometry.dependent) :=
    List.rel_append assigns.independent assigns.dependent
  have listed : ∀ id ∈ drivers ++ followers,
      id ∈ problem.request.independent ++ problem.request.dependent := by
    simp only [List.mem_append, assigns.drives, assigns.follows, imp_self, implies_true]
  have nodup := assigns.nodup
  rw [List.Nodup, List.pairwise_map]
  generalize geometry.independent ++ geometry.dependent = coordinates at moved
  generalize drivers ++ followers = ids at moved listed nodup
  induction moved with
  | nil => exact .nil
  | @cons id coordinate ids coordinates head tail ih =>
      rw [List.forall_mem_cons] at listed
      rw [List.nodup_cons] at nodup
      refine .cons (fun other member same => nodup.1 ?_) (ih listed.2 nodup.2)
      obtain ⟨place, bound, rfl⟩ := List.getElem_of_mem member
      have inside : place < ids.length := tail.length_eq ▸ bound
      have moves := tail.get inside bound
      rw [apart.positions id listed.1 _ (listed.2 _ (List.getElem_mem inside)) _ _ head moves same]
      exact List.getElem_mem inside

theorem Assigns.mem_independent (assigns : problem.Assigns geometry drivers followers)
    {id : JointId} (member : id ∈ problem.request.independent) {coordinate : Coordinate}
    (moved : problem.MovedBy id coordinate) : coordinate ∈ geometry.independent := by
  obtain ⟨place, bound, rfl⟩ := List.getElem_of_mem ((assigns.drives id).mpr member)
  have inside : place < geometry.independent.length := assigns.independent.length_eq ▸ bound
  obtain ⟨joint, known, same⟩ := assigns.independent.get bound inside
  obtain ⟨other, again, rfl⟩ := moved
  rw [List.get_eq_getElem] at known
  rw [known, Option.some.injEq] at again
  rw [← again, same]
  exact List.getElem_mem inside

/-- The loop is complete if the listed joints are moved by different coordinates and it is given by
independent coordinates only. -/
theorem complete_solve (solved : problem.solve = .ok geometry) (apart : problem.Apart)
    (given : problem.GivenByDrivers) : geometry.Complete problem.chain := by
  obtain ⟨reads, listing⟩ := reads_solve solved
  obtain ⟨drivers, followers, assigns⟩ := listing.assigns apart.once
  have among {coordinates : List Coordinate} {joint : Joint κ} (member : joint ∈ problem.chain.joints)
      (within : ∀ coordinate ∈ geometry.independent, coordinate ∈ coordinates)
      (read : Among (· ∈ problem.given) coordinates joint.coordinate.atom) :
      joint.coordinate.position ∈ coordinates.map Coordinate.position := by
    rcases read with read | ⟨coordinate, listed, same⟩
    · obtain ⟨id, drives, driver, moved, same⟩ := given joint member read
      exact same ▸ List.mem_map_of_mem (within _ (assigns.mem_independent drives moved))
    · have position : coordinate.position = joint.coordinate.position := congrArg Atom.symbol same
      exact position ▸ List.mem_map_of_mem listed
  refine ⟨assigns.distinct apart, fun joint member read => ?_, fun expr reader joint member read => ?_⟩
  · exact among member (fun _ => List.mem_append_left _)
      (Tensor.entriesRead_iff.mp reads.constraint _ read)
  · exact among member (fun _ listed => listed) (reads.solution expr reader _ read)

end Problem

/-! ### Artifacts of an accepted loop -/

/-- The artifacts are those of a closed form. -/
structure Artifacts.Of (artifacts : Artifacts κ) (geometry : Geometry κ) : Prop where
  independent : artifacts.independent = geometry.independent
  dependent : artifacts.dependent = geometry.dependent
  constraint : artifacts.constraint = geometry.constraint

theorem of_register {name : String} {derivation : Derivation κ} {artifacts : Artifacts κ}
    {session later : Graph.Session κ}
    (ran : (register name derivation).perform session = (.ok artifacts, later)) :
    artifacts.Of derivation.geometry := by
  unfold register at ran
  simp only [Action.bind_eq_ok, Action.ofAlgebra_eq_ok, Action.pure_eq_ok] at ran
  obtain ⟨_, _, _, ju, _, _, jv, _, _, inverse, _, _, jvInverse, _, _, ratio, _, _, bvu, _, _, followed,
    _, _, _, _, _, drift, _, _, compensation, _, _, bPrime, _, _, accelerated, _, _, total, _, _, _, _,
    _, rfl, _⟩ := ran
  exact ⟨rfl, rfl, rfl⟩

namespace Descriptor

variable {descriptor : Descriptor κ} {artifacts : Artifacts κ}

theorem artifacts?_linearizeTwice {geometry : Geometry κ} {jacobians : Jacobians κ}
    (unregistered : descriptor.artifacts? = none) :
    (descriptor.linearizeTwice geometry jacobians).2.artifacts? = none := by
  unfold linearizeTwice
  split
  · exact unregistered
  · rfl

theorem artifacts?_linearizeOnce {geometry : Geometry κ}
    (unregistered : descriptor.artifacts? = none) :
    (descriptor.linearizeOnce geometry).2.artifacts? = none := by
  unfold linearizeOnce
  split
  · exact unregistered
  · exact artifacts?_linearizeTwice rfl

theorem artifacts?_derive (unregistered : descriptor.artifacts? = none) :
    descriptor.derive.2.artifacts? = none := by
  unfold derive
  split
  · split
    · exact unregistered
    · exact artifacts?_linearizeOnce rfl
  · exact artifacts?_linearizeOnce unregistered
  · exact artifacts?_linearizeTwice unregistered
  · exact unregistered
  · exact unregistered

def Solves (descriptor : Descriptor κ) (artifacts : Artifacts κ) : Prop :=
  ∃ geometry, descriptor.problem.solve = .ok geometry ∧ artifacts.Of geometry

theorem solves_close (consistent : descriptor.Consistent)
    (kept : ∀ artifacts, descriptor.artifacts? = some artifacts → descriptor.Solves artifacts)
    (session : Graph.Session κ) :
    (∀ artifacts, (descriptor.close session).outcome = .ok artifacts →
        descriptor.Solves artifacts) ∧
      ∀ artifacts, (descriptor.close session).descriptor.artifacts? = some artifacts →
        (descriptor.close session).descriptor.Solves artifacts := by
  have derives := derives_derive consistent
  unfold close
  split
  · rename_i stage
    refine ⟨fun artifacts closed => kept artifacts ?_, kept⟩
    simpa [artifacts?, stage] using closed
  · rename_i stage
    have unregistered : descriptor.artifacts? = none := by
      unfold artifacts?
      split
      · rename_i registered
        exact absurd registered (stage _ _)
      · rfl
    have still := artifacts?_derive unregistered
    generalize descriptor.derive = derived at derives still
    obtain ⟨_ | derivation, later⟩ := derived
    · simp only [reduceCtorEq, false_implies, implies_true, true_and]
      exact fun artifacts found => absurd (still.symm.trans found) (Option.some_ne_none _).symm
    · simp only
      split
      · simp only [reduceCtorEq, false_implies, implies_true, true_and]
        exact fun artifacts found => absurd (still.symm.trans found) (Option.some_ne_none _).symm
      · rename_i made final ran
        have inserted : (later.insert derivation).perform session = (.ok made, final) := ran
        have follows := (derives.follows derivation rfl).solved
        have artifacts : made.Of derivation.geometry := by
          unfold insert at inserted
          split at inserted
          · obtain ⟨_, _, _, registered⟩ := Action.bind_eq_ok.mp inserted
            exact of_register registered
          · exact of_register inserted
        have same : later.problem = descriptor.problem := derives.problem_eq
        refine ⟨fun other found => ?_, fun other found => ?_⟩
        · rw [← Except.ok.inj found]
          exact ⟨_, follows, artifacts⟩
        · have registered : made = other := Option.some.inj found
          rw [← registered]
          exact ⟨_, (congrArg Problem.solve same).trans follows, artifacts⟩

theorem Reached.solves (reached : Reached descriptor) :
    ∀ artifacts, descriptor.artifacts? = some artifacts → descriptor.Solves artifacts := by
  induction reached with
  | new => exact fun artifacts found => absurd found.symm (Option.some_ne_none _)
  | close before session ih => exact (solves_close before.consistent ih session).2

end Descriptor

/-! ### What a loop is made of -/

/-- The coordinates of the chain are issued scalars, each with symbols of its own, and the loop is
given by issued symbols that are no rates of them. -/
structure Problem.Proper (limit : Nat) (problem : Problem κ) : Prop where
  built : problem.chain.Built
  scalar : ∀ joint ∈ problem.chain.joints, ∀ symbol ∈ joint.coordinate.symbols,
    symbol.shape = .scalar ∧ symbol.number < limit
  own : ∀ joint ∈ problem.chain.joints, joint.coordinate.symbols.Nodup
  separate : ∀ first ∈ problem.chain.joints, ∀ second ∈ problem.chain.joints,
    first.coordinate = second.coordinate ∨
      first.coordinate.symbols.Disjoint second.coordinate.symbols
  given : ∀ atom ∈ problem.given, atom.Regular limit
  still : ∀ atom ∈ problem.given, ∀ joint ∈ problem.chain.joints,
    atom.symbol ≠ joint.coordinate.velocity ∧ atom.symbol ≠ joint.coordinate.acceleration

theorem perm_allSymbols (coordinates : List Coordinate) :
    (Coordinate.allSymbols coordinates).Perm (coordinates.flatMap Coordinate.symbols) := by
  induction coordinates with
  | nil => exact .refl _
  | cons head tail ih =>
      rw [List.perm_iff_count] at ih ⊢
      intro symbol
      have rest := ih symbol
      simp only [Coordinate.allSymbols, Coordinate.symbols, List.count_append, List.map_cons,
        List.count_cons, List.flatMap_cons, List.count_nil] at rest ⊢
      omega

namespace Problem

variable {problem : Problem κ} {geometry : Geometry κ} {drivers followers : List JointId}
  {limit : Nat}

theorem Proper.admissible [Exact κ] (proper : problem.Proper limit) (apart : problem.Apart)
    (solved : problem.solve = .ok geometry) : geometry.Admissible limit := by
  obtain ⟨reads, listing⟩ := reads_solve solved
  obtain ⟨drivers, followers, assigns⟩ := listing.assigns apart.once
  have positions := assigns.distinct apart
  have chained {coordinate : Coordinate}
      (member : coordinate ∈ geometry.independent ++ geometry.dependent) := listing.mem_chain member
  have scalars : ∀ symbol ∈ Coordinate.allSymbols (geometry.independent ++ geometry.dependent),
      symbol.shape = .scalar ∧ symbol.number < limit := by
    intro symbol member
    obtain ⟨coordinate, among, inside⟩ := List.mem_flatMap.mp ((perm_allSymbols _).mem_iff.mp member)
    obtain ⟨joint, within, rfl⟩ := chained among
    exact proper.scalar joint within symbol inside
  have distinct : (Coordinate.allSymbols (geometry.independent ++ geometry.dependent)).Nodup := by
    rw [(perm_allSymbols _).nodup_iff, List.nodup_flatMap]
    constructor
    · intro coordinate member
      obtain ⟨joint, within, rfl⟩ := chained member
      exact proper.own joint within
    · refine (List.pairwise_map.mp positions).imp_of_mem fun first second differ => ?_
      obtain ⟨one, oneWithin, rfl⟩ := chained first
      obtain ⟨other, otherWithin, rfl⟩ := chained second
      exact (proper.separate one oneWithin other otherWithin).resolve_left fun same =>
        differ (congrArg Coordinate.position same)
  have regular {coordinates : List Coordinate}
      (within : ∀ coordinate ∈ coordinates, coordinate ∈ geometry.independent ++ geometry.dependent)
      {atom : Atom} (read : Among (· ∈ problem.given) coordinates atom) : atom.Regular limit := by
    rcases read with read | ⟨coordinate, member, rfl⟩
    · exact proper.given atom read
    · have position := scalars coordinate.position ((perm_allSymbols _).mem_iff.mpr
        (List.mem_flatMap.mpr ⟨coordinate, within coordinate member, by simp [Coordinate.symbols]⟩))
      refine ⟨?_, position.2⟩
      change 0 < coordinate.position.shape.size
      rw [position.1]
      exact Nat.one_pos
  exact {
    distinct := distinct
    scalar := fun symbol member => (scalars symbol member).1
    issued := fun symbol member => (scalars symbol member).2
    constraint := ⟨listing.length_constraint proper.built.anchor_shape, fun entry member =>
      (reads.constraint entry member).mono fun _ => regular fun _ among => among⟩
    solution := fun expr member => (reads.solution expr member).mono fun _ =>
      regular fun _ => List.mem_append_left _
    still := by
      intro atom read coordinate member
      obtain ⟨joint, within, rfl⟩ := chained (List.mem_append_right _ member)
      rcases Tensor.entriesRead_iff.mp reads.constraint atom read with given | ⟨other, among, rfl⟩
      · exact proper.still atom given joint within
      · rw [Coordinate.allSymbols, List.nodup_append', List.nodup_append'] at distinct
        obtain ⟨⟨_, _, velocities⟩, _, accelerations⟩ := distinct
        have position : other.position ∈ (geometry.independent ++ geometry.dependent).map
            Coordinate.position := List.mem_map_of_mem among
        have here := List.mem_append_right geometry.independent member
        constructor
        · intro same
          have velocity : other.position = joint.coordinate.velocity := same
          exact velocities position (velocity ▸ List.mem_map_of_mem here)
        · intro same
          have acceleration : other.position = joint.coordinate.acceleration := same
          exact accelerations (List.mem_append_left _ position)
            (acceleration ▸ List.mem_map_of_mem here) }

end Problem

/-! ### Motions of a chain -/

section

variable {geometry : Geometry κ} {chain : Chain κ}
  {assignment : Assignment} {motion : ℝ → Assignment} {speed : Coordinate → ℝ}

def Geometry.coordinateAt (geometry : Geometry κ) :
    Fin geometry.independent.length ⊕ Fin geometry.dependent.length → Coordinate :=
  Sum.elim (geometry.independent[·]) (geometry.dependent[·])

theorem Geometry.mem_coordinateAt (geometry : Geometry κ) {coordinate : Coordinate} :
    coordinate ∈ geometry.independent ++ geometry.dependent ↔
      ∃ index, geometry.coordinateAt index = coordinate := by
  rw [List.mem_append, List.mem_iff_getElem, List.mem_iff_getElem]
  simp only [coordinateAt, Sum.exists, Sum.elim_inl, Sum.elim_inr, Fin.exists_iff]
  rfl

theorem Geometry.Complete.injective (complete : geometry.Complete chain) :
    Function.Injective fun index => (geometry.coordinateAt index).atom := by
  have distinct := complete.distinct
  rw [List.map_append, List.nodup_append'] at distinct
  obtain ⟨first, second, apart⟩ := distinct
  have inside {coordinates : List Coordinate} (nodup : (coordinates.map Coordinate.position).Nodup)
      (one other : Fin coordinates.length)
      (same : (coordinates.get one).atom = (coordinates.get other).atom) : one = other := by
    have twice := List.inj_on_of_nodup_map nodup (List.getElem_mem one.isLt)
      (List.getElem_mem other.isLt) (congrArg Atom.symbol same)
    exact Fin.ext ((List.Nodup.of_map _ nodup).getElem_inj_iff.mp twice)
  have across (one : Fin geometry.independent.length) (other : Fin geometry.dependent.length) :
      geometry.independent[one].atom ≠ geometry.dependent[other].atom := fun same =>
    apart (List.mem_map_of_mem (List.getElem_mem one.isLt)) (by
      have position : geometry.independent[one].position = geometry.dependent[other].position :=
        congrArg Atom.symbol same
      exact position ▸ List.mem_map_of_mem (List.getElem_mem other.isLt))
  rintro (one | one) (other | other) same
  · exact congrArg _ (inside first one other same)
  · exact absurd same (across one other)
  · exact absurd same.symm (across other one)
  · exact congrArg _ (inside second one other same)

variable [Exact κ] [ExactDivision κ]

open Mechanism.Expr in
theorem Geometry.Complete.hasDerivAt (complete : geometry.Complete chain)
    (listed : ∀ coordinate ∈ geometry.independent ++ geometry.dependent,
      ∃ joint ∈ chain.joints, joint.coordinate = coordinate)
    (moves : chain.Moves assignment motion speed)
    (smooth : geometry.constraint.SmoothAt 1 assignment) (row : Nat) :
    HasDerivAt (fun time => (geometry.constraint.component row).valueIn (motion time))
      (∑ index, speed (geometry.coordinateAt index) *
        ((geometry.constraint.component row).derivative (geometry.coordinateAt index).atom).valueIn
          assignment) 0 := by
  have joint (index) := listed _ (geometry.mem_coordinateAt.mpr ⟨index, rfl⟩)
  have known (index) (time : ℝ) :
      motion time (geometry.coordinateAt index).atom =
        some ((geometry.coordinateAt index).valueIn (motion time)) := by
    obtain ⟨joint, member, same⟩ := joint index
    rw [← same]
    exact eq_some_getD (moves.known joint member time)
  have here (index) : assignment (geometry.coordinateAt index).atom =
      some ((geometry.coordinateAt index).valueIn assignment) := by
    rw [← moves.start]
    exact known index 0
  have slopes : HasDerivAt (fun time index => (geometry.coordinateAt index).valueIn (motion time) -
      (geometry.coordinateAt index).valueIn assignment)
        (fun index => speed (geometry.coordinateAt index)) 0 := by
    refine hasDerivAt_pi.mpr fun index => ?_
    obtain ⟨joint, member, same⟩ := joint index
    rw [← same]
    exact (moves.slopes joint member).sub_const _
  have along := (smooth.component row).hasDerivAt_along
    (fun index => Option.isSome_of_eq_some (here index)) (by simp [moves.start]; rfl) slopes
  refine along.congr_of_eventuallyEq (.of_forall fun time => ?_)
  -- what the constraint reads is a listed coordinate, or stays as it is
  refine congrArg (Option.getD · 0) (realValue?_congr fun atom reads => ?_)
  by_cases inside : ∃ joint ∈ chain.joints, joint.coordinate.atom = atom
  · obtain ⟨joint, member, rfl⟩ := inside
    have among := complete.constraint joint member (Tensor.mem_atoms_of_component reads)
    obtain ⟨coordinate, placed, same⟩ := List.mem_map.mp among
    obtain ⟨index, rfl⟩ := geometry.mem_coordinateAt.mp placed
    have atom : (geometry.coordinateAt index).atom = joint.coordinate.atom :=
      congrArg Atom.whole same
    rw [← atom, known index time, moved_of_injective complete.injective index, here index,
      Option.map_some, add_sub_cancel]
  · rw [moves.still atom (fun joint member same => inside ⟨joint, member, same⟩) time, moved_eq_self]
    intro index same
    obtain ⟨joint, member, coordinate⟩ := joint index
    exact inside ⟨joint, member, coordinate ▸ same⟩

theorem Geometry.Complete.velocities (complete : geometry.Complete chain)
    (listed : ∀ coordinate ∈ geometry.independent ++ geometry.dependent,
      ∃ joint ∈ chain.joints, joint.coordinate = coordinate)
    {environment : Environment} (moves : chain.Moves environment.read motion speed)
    (smooth : geometry.constraint.SmoothAt 1 environment.read)
    {Ju : Matrix (Fin geometry.dependent.length) (Fin geometry.independent.length) ℝ}
    {Jv : Matrix (Fin geometry.dependent.length) (Fin geometry.dependent.length) ℝ}
    (driving : geometry.constraint.HasPartials environment geometry.independent Ju)
    (following : geometry.constraint.HasPartials environment geometry.dependent Jv)
    (closed : ∀ time, ∀ row : Fin geometry.dependent.length,
      (geometry.constraint.component row).valueIn (motion time) = 0) :
    Ju.mulVec (fun index => speed geometry.independent[index]) +
      Jv.mulVec (fun index => speed geometry.dependent[index]) = 0 := by
  funext row
  have along := complete.hasDerivAt listed moves smooth row
  simp only [closed] at along
  have balanced := along.unique (hasDerivAt_const 0 0)
  rw [Fintype.sum_sum_type] at balanced
  rw [Pi.add_apply, Matrix.mulVec, Matrix.mulVec, dotProduct, dotProduct, Pi.zero_apply, ← balanced]
  congr 1 <;> refine Finset.sum_congr rfl fun index _ => ?_
  · rw [driving.apply_eq smooth, mul_comm]
    rfl
  · rw [following.apply_eq smooth, mul_comm]
    rfl

/-! ### Complete velocity maps -/

/-- Wherever the constraint is smooth and its derivative by the dependent coordinates can be
inverted, the map that is registered gives the velocities of the dependent coordinates in every
motion of the chain that keeps the constraint. -/
def Artifacts.Maps (artifacts : Artifacts κ) (geometry : Geometry κ) (chain : Chain κ)
    (graph : Graph κ) : Prop :=
  ∀ (environment : Environment)
    (Ju : Matrix (Fin geometry.dependent.length) (Fin geometry.independent.length) ℝ)
    (Jv : Matrix (Fin geometry.dependent.length) (Fin geometry.dependent.length) ℝ),
    artifacts.Follows graph environment → geometry.constraint.SmoothAt 1 environment.read →
      geometry.constraint.HasPartials environment geometry.independent Ju →
      geometry.constraint.HasPartials environment geometry.dependent Jv → Jv.det ≠ 0 →
        (Tensor.ofSymbol artifacts.bvu : Tensor κ).Holds environment.read (-(Jv⁻¹ * Ju)) ∧
          ∀ (motion : ℝ → Assignment) (speed : Coordinate → ℝ),
            chain.Moves environment.read motion speed →
              (∀ time, ∀ row : Fin geometry.dependent.length,
                (geometry.constraint.component row).valueIn (motion time) = 0) →
                (fun index => speed geometry.dependent[index]) =
                  (-(Jv⁻¹ * Ju)).mulVec fun index => speed geometry.independent[index]

theorem Registered.maps {derivation : Derivation κ} {artifacts : Artifacts κ} {graph : Graph κ}
    (registered : Registered derivation artifacts graph) (sound : derivation.Sound)
    (complete : derivation.geometry.Complete chain)
    (listed : ∀ coordinate ∈ derivation.geometry.independent ++ derivation.geometry.dependent,
      ∃ joint ∈ chain.joints, joint.coordinate = coordinate) :
    artifacts.Maps derivation.geometry chain graph := by
  intro environment Ju Jv follows smooth driving following regular
  have height := registered.height sound
  have ju := registered.ju.yields follows.removed
    (driving.holds smooth height sound.jacobians_eq_ok.1)
  have jv := registered.jv.yields follows.removed
    (following.holds smooth height sound.jacobians_eq_ok.2)
  refine ⟨registered.holds_bvu follows jv regular ju, fun motion speed moves closed => ?_⟩
  have balanced := complete.velocities listed moves smooth driving following closed
  exact eq_of_balanced regular balanced

end

/-- A loop whose joints have different coordinates, and which is given by independent ones only,
is accepted with distinct coordinates, of which its constraint and its solution are a matter; and
registered for the first time, it has a map that gives all of the velocities that keep the
constraint. -/
theorem Descriptor.close_complete [Exact κ] [ExactDivision κ] {simplifier : Simplifier κ}
    (tame : simplifier.Tame) {session : Graph.Session κ}
    (reachable : Graph.Reachable simplifier session) {descriptor : Descriptor κ}
    (reached : Reached descriptor) (apart : descriptor.problem.Apart)
    (given : descriptor.problem.GivenByDrivers) {artifacts : Artifacts κ}
    (closed : (descriptor.close session).outcome = .ok artifacts) :
    ∃ geometry, descriptor.problem.solve = .ok geometry ∧ artifacts.Of geometry ∧
      geometry.Complete descriptor.problem.chain ∧
      (descriptor.artifacts? = none → descriptor.problem.Proper session.supply.next →
        artifacts.Maps geometry descriptor.problem.chain
          (descriptor.close session).session.graph) := by
  obtain ⟨geometry, solved, made⟩ :=
    (Descriptor.solves_close reached.consistent reached.solves session).1 artifacts closed
  have complete := Problem.complete_solve solved apart given
  refine ⟨geometry, solved, made, complete, fun unregistered proper => ?_⟩
  obtain ⟨derivation, rfl, sound, registered⟩ := close_registered tame reachable reached
    unregistered solved (proper.admissible apart solved) closed
  exact registered.maps sound complete fun _ => (Problem.reads_solve solved).2.mem_chain

/-! ### The complete guarded square -/

namespace GuardedSquare

theorem movedBy {id : JointId} {coordinate : Coordinate}
    (moved : linkage.MovedBy id coordinate) :
    id = ⟨0⟩ ∧ coordinate = crank ∨ id = ⟨1⟩ ∧ coordinate = output := by
  obtain ⟨joint, found, rfl⟩ := moved
  match id with
  | ⟨0⟩ =>
      cases found
      exact .inl ⟨rfl, rfl⟩
  | ⟨1⟩ =>
      cases found
      exact .inr ⟨rfl, rfl⟩
  | ⟨_ + 2⟩ => cases found

theorem apart : linkage.Apart where
  once := fun _ _ => List.nodup_singleton _
  positions := by
    intro first _ second _ one other moved moves same
    obtain ⟨rfl, rfl⟩ | ⟨rfl, rfl⟩ := movedBy moved <;>
      obtain ⟨rfl, rfl⟩ | ⟨rfl, rfl⟩ := movedBy moves
    · rfl
    · exact absurd same (by decide)
    · exact absurd same (by decide)
    · rfl

theorem givenByDrivers : linkage.GivenByDrivers := by
  intro joint member read
  have here : joint.coordinate.position = crank.position :=
    congrArg Atom.symbol (reads_guard _ read)
  exact ⟨⟨0⟩, List.mem_singleton.mpr rfl, crank, ⟨_, rfl, rfl⟩, here.symm⟩

theorem coordinate_of_mem {joint : Joint RealNumber} (member : joint ∈ linkage.chain.joints) :
    joint.coordinate = crank ∨ joint.coordinate = output := by
  obtain rfl | rfl : joint = _ ∨ joint = _ := by simpa [linkage] using member
  · exact .inl rfl
  · exact .inr rfl

theorem built : linkage.chain.Built := by
  have first : (Chain.empty : Chain RealNumber).add turning = .ok (⟨0⟩, ⟨[turning]⟩) := rfl
  have second : (⟨[turning]⟩ : Chain RealNumber).add turned = .ok (⟨1⟩, linkage.chain) := rfl
  exact (Chain.Built.empty.add first).add second

theorem proper : linkage.Proper session.supply.next where
  built := built
  scalar := by
    intro joint member
    rcases coordinate_of_mem member with same | same <;> rw [same] <;> decide
  own := by
    intro joint member
    rcases coordinate_of_mem member with same | same <;> rw [same] <;> decide
  separate := by
    intro first one second other
    rcases coordinate_of_mem one with same | same <;>
      rcases coordinate_of_mem other with again | again <;> rw [same, again]
    · exact .inl rfl
    · exact .inr (List.disjoint_left.mpr (by decide))
    · exact .inr (List.disjoint_left.mpr (by decide))
    · exact .inl rfl
  given := by
    intro atom member
    obtain rfl := reads_guard atom member
    exact ⟨(by decide : 0 < 1), (by decide : 3 < 9)⟩
  still := by
    intro atom member joint among
    obtain rfl := reads_guard atom member
    rcases coordinate_of_mem among with same | same <;> rw [same] <;> decide

/-- The crank turns from one, and the output with it. -/
noncomputable def motion (time : ℝ) (atom : Atom) : Option ℝ :=
  if atom = crank.atom then some (1 + time)
  else if atom = output.atom then some ((1 + time) ^ 2)
  else (environment 1).read atom

noncomputable def speed (coordinate : Coordinate) : ℝ := 
  if coordinate = crank then 1 else 1 + 1

theorem motion_crank (time : ℝ) : motion time crank.atom = some (1 + time) := if_pos rfl

theorem motion_output (time : ℝ) : motion time output.atom = some ((1 + time) ^ 2) :=
  (if_neg (by decide)).trans (if_pos rfl)

theorem moves : linkage.chain.Moves (environment 1).read motion speed where
  start := by
    funext atom
    unfold motion
    split
    · rename_i same
      rw [same, place_eq, add_zero]
    · split
      · rename_i same
        rw [same, output_eq, add_zero]
      · rfl
  still := by
    intro atom apart time
    have driving : crank.atom ≠ atom := apart turning (.head _)
    have following : output.atom ≠ atom := apart turned (.tail _ (.head _))
    rw [motion, if_neg driving.symm, if_neg following.symm]
  known := by
    intro joint member time
    rcases coordinate_of_mem member with same | same <;> rw [same]
    · exact Option.isSome_of_eq_some (motion_crank time)
    · exact Option.isSome_of_eq_some (motion_output time)
  slopes := by
    intro joint member
    rcases coordinate_of_mem member with same | same <;> rw [same]
    · have slope : HasDerivAt (fun time : ℝ => 1 + time) 1 0 := (hasDerivAt_id _).const_add 1
      refine (slope.congr_of_eventuallyEq (.of_forall fun time => ?_)).congr_deriv (if_pos rfl).symm
      exact congrArg (Option.getD · 0) (motion_crank time)
    · have slope : HasDerivAt (fun time : ℝ => (1 + time) ^ 2) (1 + 1) 0 := by
        simpa [one_add_one_eq_two] using ((hasDerivAt_id (0 : ℝ)).const_add 1).fun_pow 2
      refine (slope.congr_of_eventuallyEq (.of_forall fun time => ?_)).congr_deriv
        (if_neg (by decide)).symm
      exact congrArg (Option.getD · 0) (motion_output time)

theorem guardedSquare_complete : ∃ artifacts, (descriptor.close session).outcome = .ok artifacts ∧
    artifacts.Of geometry ∧ geometry.Complete linkage.chain ∧
      (Tensor.ofSymbol artifacts.bvu : Tensor RealNumber).Holds (environment 1).read
        (-(followingMatrix⁻¹ * drivingMatrix 1)) ∧
      linkage.chain.Moves (environment 1).read motion speed ∧
      (fun index => speed geometry.dependent[index]) =
        (-(followingMatrix⁻¹ * drivingMatrix 1)).mulVec fun index =>
          speed geometry.independent[index] := by
  obtain ⟨artifacts, outcome⟩ := closes
  obtain ⟨_, again, made, complete, maps⟩ := Descriptor.close_complete Simplifier.keep_tame
    reachable (.new ..) apart givenByDrivers outcome
  obtain rfl : geometry = _ := Except.ok.inj (solved.symm.trans again)
  have follows := Artifacts.Follows.of_tidy closed_tidy.1 (driven 1) artifacts
  have once : geometry.constraint.SmoothAt 1 (environment 1).read := fun entry member =>
    (smooth_constraint one_pos (place_eq 1) (output_eq 1) entry member).mono one_le_two
  obtain ⟨bvu, velocities⟩ := maps rfl proper _ _ _ follows once (driving 1) (following 1) regular
  refine ⟨artifacts, outcome, made, complete, bvu, moves, velocities motion speed moves ?_⟩
  intro time row
  rw [valueIn_constraint (motion_crank time) (motion_output time), sub_self]

/-! Listed twice, the crank is accepted as well. -/

noncomputable def doubled : Problem RealNumber :=
  { linkage with request := { linkage.request with independent := [⟨0⟩, ⟨0⟩] } }

theorem doubled_solved : doubled.solve =
    .ok (Problem.coupled [crank, crank] output (Guarded.guard crank.atom square)) := by
  change (if (Guarded.guard crank.atom square).symbols.contains output.position then _ else _) = _
  rw [output_apart, if_neg Bool.false_ne_true]
  rfl

theorem doubled_repeats : ∃ artifacts,
    ((⟨doubled, descriptor.settings, .unresolved⟩ : Descriptor RealNumber).close session).outcome =
      .ok artifacts ∧ artifacts.independent = [crank, crank] := by
  have unchecked : descriptor.settings.checkSingularity = false := rfl
  obtain ⟨artifacts, outcome⟩ := Descriptor.close_succeeds unchecked doubled_solved ⟨rfl, rfl⟩ rfl
    (by decide) room (by decide) (by decide)
  have reached := Descriptor.Reached.new doubled descriptor.settings
  obtain ⟨geometry, again, made⟩ :=
    (Descriptor.solves_close reached.consistent reached.solves session).1 artifacts outcome
  obtain rfl := Except.ok.inj (doubled_solved.symm.trans again)
  exact ⟨artifacts, outcome, made.independent⟩

end GuardedSquare

end Loop

end Mechanism
