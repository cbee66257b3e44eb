import Mechanism.Loop.Descriptor
import Mechanism.Proofs.Graph.Reachability
import Mechanism.Proofs.Loop.Equations
import Mechanism.Proofs.Loop.Structure

/-!
Loops on their way into a graph. What a loop has derived so far follows from its problem, at every
stage that it can reach, so that a registration is one of the derivatives of its constraint.
-/

open Relation (ReflTransGen)

namespace Mechanism.Loop

variable {κ α β : Type} [Scalar κ]

def Ensures (answer : Answer κ α) (property : α → Prop) : Prop :=
  ∀ value, answer = .ok value → property value

namespace Ensures

variable {answer : Answer κ β} {next : β → Answer κ α} {property : α → Prop}

theorem bind_of {known : β → Prop} (first : Ensures answer known)
    (rest : ∀ value, known value → Ensures (next value) property) :
    Ensures (answer >>= next) property := by
  intro value found
  obtain ⟨middle, made, final⟩ := Mechanism.bind_eq_ok.mp found
  exact rest middle (first middle made) value final

theorem bind (rest : ∀ value, Ensures (next value) property) : Ensures (answer >>= next) property :=
  bind_of (fun _ _ => trivial) fun value _ => rest value

theorem pure {value : α} (holds : property value) : Ensures (κ := κ) (.ok value) property := by
  rintro _ ⟨⟩
  exact holds

end Ensures

namespace Problem

variable {problem : Problem κ}

/-- There are independent coordinates. -/
def Driven (geometry : Geometry κ) : Prop := geometry.independent ≠ []

theorem length_coordinates {ids : List JointId} {coordinates : List Coordinate}
    (found : problem.coordinates ids = .ok coordinates) : coordinates.length = ids.length :=
  (Simplifier.mapM_eq_ok found).length_eq.symm

theorem length_partition {independent dependent : List JointId} :
    Ensures (problem.partition independent dependent) fun parts =>
      parts.1.length = independent.length ∧ parts.2.length = dependent.length := by
  rintro ⟨u, v⟩ parted
  unfold partition at parted
  simp only at parted
  split at parted
  · exact absurd parted unsupported_ne_ok
  · split at parted
    · exact absurd parted unsupported_ne_ok
    · simp only [bind_eq_ok] at parted
      obtain ⟨u, first, v, second, same⟩ := parted
      cases same
      exact ⟨length_coordinates first, length_coordinates second⟩

theorem ensures_partition {independent dependent : List JointId} (some : independent ≠ []) :
    Ensures (problem.partition independent dependent) fun parts => parts.1 ≠ [] := by
  intro parts parted
  rw [← List.length_pos_iff_ne_nil, (length_partition parts parted).1, List.length_pos_iff_ne_nil]
  exact some

variable {posture : Posture} {a b : List JointId}

theorem driven_fourBar : Ensures (problem.fourBar posture a b) Driven := by
  refine .bind fun ⟨crank, coupler⟩ => .bind fun rocker => .bind fun axis => ?_
  refine .bind_of (ensures_partition (by simp)) fun ⟨u, v⟩ driven => ?_
  exact .bind fun _ => .bind fun _ => .bind fun _ => .bind fun _ => .bind fun _ => .bind fun _ =>
    .bind fun _ => .pure driven

theorem driven_fourBarTrans : Ensures (problem.fourBarTrans a b) Driven := by
  refine .bind fun ⟨crank, coupler⟩ => .bind fun ⟨pivot, slider⟩ => .bind fun axis =>
    .bind fun direction => ?_
  refine .bind_of (ensures_partition (by simp)) fun ⟨u, v⟩ driven => ?_
  exact .bind fun _ => .bind fun _ => .bind fun _ => .bind fun _ => .bind fun _ => .bind fun _ =>
    .bind fun _ => .bind fun _ => .pure driven

theorem driven_threeBarTrans : Ensures (problem.threeBarTrans a b) Driven := by
  refine .bind fun crank => .bind fun ⟨pivot, slider⟩ => .bind fun axis => .bind fun direction => ?_
  refine .bind_of (ensures_partition (by simp)) fun ⟨u, v⟩ driven => ?_
  exact .bind fun _ => .bind fun _ => .bind fun _ => .bind fun _ => .bind fun _ => .bind fun _ =>
    .pure driven

theorem driven_crankSlider : Ensures (problem.crankSlider posture a b) Driven := by
  refine .bind fun crank => .bind fun ⟨slider, rod⟩ => .bind fun axis => .bind fun direction => ?_
  refine .bind_of (ensures_partition (by simp)) fun ⟨u, v⟩ driven => ?_
  exact .bind fun _ => .bind fun _ => .bind fun _ => .bind fun _ => .bind fun _ => .bind fun _ =>
    .bind fun _ => .pure driven

theorem driven_steering : Ensures (problem.steering posture a b) Driven := by
  refine .bind fun _ => .bind fun ⟨rack, tieRod, knuckle⟩ => .bind fun axis =>
    .bind fun direction => ?_
  refine .bind_of (ensures_partition (by simp)) fun ⟨u, v⟩ driven => ?_
  exact .bind fun _ => .bind fun _ => .bind fun _ => .bind fun _ => .bind fun _ => .bind fun _ =>
    .bind fun _ => .pure driven

theorem driven_hexapod {offsetAllowed : Bool} :
    Ensures (problem.hexapod offsetAllowed a b) Driven := by
  intro geometry solved
  simp only [hexapod, bind_eq_ok, check_eq_ok, Prod.exists] at solved
  obtain ⟨some, yaw, tilt, length, _, _, _, _, _, _, _, direction, _, rest⟩ := solved
  have driven : Ensures (problem.partition a [length, yaw, tilt]) fun parts => parts.1 ≠ [] :=
    ensures_partition fun none => some (List.isEmpty_iff.mpr none)
  split at rest
  · simp only [check_eq_ok, bind_eq_ok, Prod.exists] at rest
    obtain ⟨_, _, _, u, v, parted, _, _, _, _, _, _, _, _, _, _, same⟩ := rest
    cases same
    exact driven _ parted
  · obtain ⟨_, refused, _⟩ := bind_eq_ok.mp rest
    exact absurd refused unsupported_ne_ok

theorem length_coupling {accepted : Nat → Bool} : Ensures (problem.coupling accepted)
    fun found => found.1.length = problem.request.independent.length ∧
      accepted problem.request.independent.length = true := by
  rintro ⟨coordinates, follower⟩ coupled
  unfold coupling at coupled
  simp only at coupled
  split at coupled
  · simp only [check_eq_ok, bind_eq_ok, Bool.not_eq_true, Bool.not_eq_false_eq_eq_true] at coupled
    obtain ⟨allowed, _, independent, found, _, _, same⟩ := coupled
    cases same
    exact ⟨length_coordinates found, allowed⟩
  · exact absurd coupled unsupported_ne_ok

theorem driven_transmission {ratio : κ} : Ensures (problem.transmission ratio) Driven := by
  intro geometry solved
  simp only [transmission, check_eq_ok, bind_eq_ok] at solved
  obtain ⟨_, ⟨independent, follower⟩, _, rest⟩ := solved
  split at rest
  · cases rest
    exact List.cons_ne_nil _ _
  · exact absurd rest unsupported_ne_ok

theorem driven_explicitJoint {expression : Expr κ} :
    Ensures (problem.explicitJoint expression) Driven := by
  intro geometry solved
  simp only [explicitJoint, bind_eq_ok, check_eq_ok] at solved
  obtain ⟨⟨independent, follower⟩, found, _, same⟩ := solved
  cases same
  obtain ⟨length, some⟩ := length_coupling _ found
  rw [← length, bne_iff_ne] at some
  exact List.ne_nil_of_length_pos (Nat.pos_of_ne_zero some)

theorem driven_solve : Ensures problem.solve Driven := by
  intro geometry solved
  simp only [solve, bind_eq_ok, Prod.exists] at solved
  obtain ⟨a, b, _, rest⟩ := solved
  revert geometry
  split
  · exact driven_fourBar
  · exact driven_fourBarTrans
  · exact driven_threeBarTrans
  · exact driven_crankSlider
  · exact driven_steering
  · exact driven_hexapod
  · exact driven_hexapod
  · exact driven_transmission
  · exact driven_explicitJoint

end Problem

section

variable {limit : Nat} {session later : Graph.Session κ}

section

variable {symbol : Symbol} {rest : List Symbol} {known : Numbers κ}

theorem run_numbersOf_numbers {entries : List κ}
    (found : (Graph.numbersOf symbol).perform session = (.ok (some entries), later)) :
    (numbersOf (symbol :: rest) known).run session =
      (numbersOf rest (known.insert symbol entries)).run later := by
  change (Graph.numbersOf symbol).run.run session = _ at found
  rw [numbersOf, StateT.run_bind, found]
  rfl

theorem run_numbersOf_none
    (found : (Graph.numbersOf symbol).perform session = (.ok none, later)) :
    (numbersOf (symbol :: rest) known).run session = (none, later) := by
  change (Graph.numbersOf symbol).run.run session = _ at found
  rw [numbersOf, StateT.run_bind, found]
  rfl

theorem run_numbersOf_error {error : GraphError κ}
    (found : (Graph.numbersOf symbol).perform session = (.error error, later)) :
    (numbersOf (symbol :: rest) known).run session = (none, later) := by
  change (Graph.numbersOf symbol).run.run session = _ at found
  rw [numbersOf, StateT.run_bind, found]
  rfl

end

/-- What one question does to the session, all questions together do. -/
theorem numbersOf_related {related : Graph.Session κ → Graph.Session κ → Prop}
    (refl : ∀ session, related session session)
    (trans : ∀ {first second third}, related first second → related second third →
      related first third)
    (each : ∀ session symbol, related session ((Graph.numbersOf symbol).perform session).2)
    (session : Graph.Session κ) (symbols : List Symbol) (known : Numbers κ) :
    related session ((numbersOf symbols known).run session).2 := by
  induction symbols generalizing session known with
  | nil => exact refl session
  | cons symbol rest ih =>
      have first := each session symbol
      rcases answer : (Graph.numbersOf symbol).perform session with ⟨_ | _ | entries, middle⟩ <;>
        rw [answer] at first
      · rwa [run_numbersOf_error answer]
      · rwa [run_numbersOf_none answer]
      · rw [run_numbersOf_numbers answer]
        exact trans first (ih middle _)

theorem Action.forM_related {related : Graph.Session κ → Graph.Session κ → Prop}
    (refl : ∀ session, related session session)
    (trans : ∀ {first second third}, related first second → related second third →
      related first third) {action : β → Action κ Unit}
    (each : ∀ item session, related session ((action item).perform session).2) (items : List β)
    (session : Graph.Session κ) : related session ((items.forM action).perform session).2 := by
  induction items generalizing session with
  | nil => exact refl session
  | cons head tail ih =>
      have first := each head session
      rw [List.forM, Action.perform_bind]
      split <;> rename_i ran <;> rw [ran] at first
      · exact trans first (ih _)
      · exact first

theorem numbersOf_evaluates (session : Graph.Session κ) (symbols : List Symbol) (known : Numbers κ) :
    ReflTransGen Graph.Evaluates session ((numbersOf symbols known).run session).2 :=
  numbersOf_related (fun _ => .refl) ReflTransGen.trans Graph.numbersOf_evaluates session symbols
    known

theorem checkRegularity_evaluates (session : Graph.Session κ) (name : String)
    (settings : Settings κ) (derivation : Derivation κ) :
    ReflTransGen Graph.Evaluates session
      ((checkRegularity name settings derivation).perform session).2 := by
  have asked := numbersOf_evaluates session derivation.parameters ∅
  have lifted : (liftM (numbersOf derivation.parameters ∅) :
      Action κ (Option (Numbers κ))).perform session =
        (.ok ((numbersOf derivation.parameters ∅).run session).1,
          ((numbersOf derivation.parameters ∅).run session).2) := rfl
  unfold checkRegularity
  rw [Action.perform_bind]
  erw [lifted]
  generalize (numbersOf derivation.parameters ∅).run session = answer at asked
  obtain ⟨_ | numbers, middle⟩ := answer
  · exact asked
  · simp only [Action.perform_bind]
    cases derivation.configurationAt numbers with
    | error error => exact asked
    | ok configuration =>
        change ReflTransGen Graph.Evaluates session (Action.perform (if _ then _ else _) middle).2
        split <;> exact asked

theorem checkRegularity_queried (valid : session.graph.Valid limit) (name : String)
    (settings : Settings κ) (derivation : Derivation κ) :
    Graph.Queried session ((checkRegularity name settings derivation).perform session).2 :=
  Graph.queried_of_evaluates valid (checkRegularity_evaluates session name settings derivation)

theorem Descriptor.verify_evaluates (descriptor : Descriptor κ) (session : Graph.Session κ) :
    ReflTransGen Graph.Evaluates session (descriptor.verify.perform session).2 := by
  unfold verify
  split
  · exact checkRegularity_evaluates session _ _ _
  · exact .refl

end

/-- What is to be registered follows from the problem. -/
structure Derivation.Follows (problem : Problem κ) (derivation : Derivation κ) : Prop where
  solved : problem.solve = .ok derivation.geometry
  sound : derivation.Sound

/-- What has been derived so far follows from the problem. -/
inductive Progress.Follows (problem : Problem κ) : Progress κ → Prop where
  | unresolved : Follows problem .unresolved
  | geometrySolved {geometry : Geometry κ} (solved : problem.solve = .ok geometry) :
      Follows problem (.geometrySolved geometry)
  | linearizedOnce {geometry : Geometry κ} {jacobians : Jacobians κ}
      (solved : problem.solve = .ok geometry) (first : geometry.jacobians = .ok jacobians) :
      Follows problem (.linearizedOnce geometry jacobians)
  | linearizedTwice {derivation : Derivation κ} (derived : derivation.Follows problem) :
      Follows problem (.linearizedTwice derivation)
  | registered {derivation : Derivation κ} {artifacts : Artifacts κ}
      (derived : derivation.Follows problem) :
      Follows problem (.registered derivation artifacts)

namespace Descriptor

/-- What has been derived for a loop so far follows from its problem. -/
def Consistent (descriptor : Descriptor κ) : Prop :=
  descriptor.progress.Follows descriptor.problem

/-- The derivation that a stage came to, if any, and the loop with it. -/
structure Derives (problem : Problem κ) (stage : Answer κ (Derivation κ) × Descriptor κ) :
    Prop where
  problem_eq : stage.2.problem = problem
  consistent : stage.2.Consistent
  follows : Ensures stage.1 (Derivation.Follows problem)

variable {descriptor : Descriptor κ} {geometry : Geometry κ} {jacobians : Jacobians κ}

theorem derives_error {error : LoopError κ} (consistent : descriptor.Consistent) :
    Derives descriptor.problem (.error error, descriptor) :=
  ⟨rfl, consistent, nofun⟩

theorem derives_ok {derivation : Derivation κ} (consistent : descriptor.Consistent)
    (follows : derivation.Follows descriptor.problem) :
    Derives descriptor.problem (.ok derivation, descriptor) :=
  ⟨rfl, consistent, .pure follows⟩

theorem derives_linearizeTwice (consistent : descriptor.Consistent)
    (solved : descriptor.problem.solve = .ok geometry) (first : geometry.jacobians = .ok jacobians) :
    Derives descriptor.problem (descriptor.linearizeTwice geometry jacobians) := by
  unfold linearizeTwice
  split
  · exact derives_error consistent
  · rename_i drift second
    have follows : Derivation.Follows descriptor.problem ⟨geometry, jacobians, drift⟩ :=
      ⟨solved, first, second⟩
    have later : (descriptor.enter (.linearizedTwice ⟨geometry, jacobians, drift⟩)).Consistent :=
      .linearizedTwice follows
    exact derives_ok later follows

theorem derives_linearizeOnce (consistent : descriptor.Consistent)
    (solved : descriptor.problem.solve = .ok geometry) :
    Derives descriptor.problem (descriptor.linearizeOnce geometry) := by
  unfold linearizeOnce
  split
  · exact derives_error consistent
  · rename_i jacobians first
    have later : (descriptor.enter (.linearizedOnce geometry jacobians)).Consistent :=
      .linearizedOnce solved first
    exact derives_linearizeTwice later solved first

theorem derives_derive (consistent : descriptor.Consistent) :
    Derives descriptor.problem descriptor.derive := by
  have follows := consistent
  unfold derive
  unfold Consistent at follows
  split <;> rename_i stage <;> rw [stage] at follows
  · split
    · exact derives_error consistent
    · rename_i geometry solved
      have later : (descriptor.enter (.geometrySolved geometry)).Consistent :=
        .geometrySolved solved
      exact derives_linearizeOnce later solved
  · obtain _ | solved := follows
    exact derives_linearizeOnce consistent solved
  · obtain _ | _ | ⟨solved, first⟩ := follows
    exact derives_linearizeTwice consistent solved first
  · obtain _ | _ | _ | derived := follows
    exact derives_ok consistent derived
  · obtain _ | _ | _ | _ | derived := follows
    exact derives_ok consistent derived

theorem consistent_close (consistent : descriptor.Consistent) (session : Graph.Session κ) :
    (descriptor.close session).descriptor.Consistent := by
  have derives := derives_derive consistent
  unfold close
  split
  · exact consistent
  · generalize descriptor.derive = stage at derives
    obtain ⟨_ | derivation, later⟩ := stage
    · exact derives.consistent
    · simp only
      split
      · exact derives.consistent
      · have follows := derives.follows derivation rfl
        rw [← derives.problem_eq] at follows
        exact .registered follows

/-- A loop that has been asked for, after any attempts to close it. -/
inductive Reached : Descriptor κ → Prop where
  | new (problem : Problem κ) (settings : Settings κ) : Reached ⟨problem, settings, .unresolved⟩
  | close {descriptor : Descriptor κ} (before : Reached descriptor) (session : Graph.Session κ) :
      Reached (descriptor.close session).descriptor

theorem reached_new [ScalarText κ] {request : Request κ} {chain : Chain κ}
    {settings : Settings κ} (made : Descriptor.new request chain settings = .ok descriptor) :
    Reached descriptor := by
  unfold Descriptor.new at made
  split at made
  · cases made
  · split at made
    · cases made
    · cases made
      exact .new ..

theorem Reached.consistent (reached : Reached descriptor) : descriptor.Consistent := by
  induction reached with
  | new => exact .unresolved
  | close _ session ih => exact consistent_close ih session

theorem close_eq_ok {limit : Nat} {session : Graph.Session κ} {artifacts : Artifacts κ}
    (consistent : descriptor.Consistent) (unregistered : descriptor.artifacts? = none)
    (valid : session.graph.Valid limit)
    (closed : (descriptor.close session).outcome = .ok artifacts) :
    ∃ derivation middle, derivation.Follows descriptor.problem ∧ Graph.Queried session middle ∧
      (register descriptor.name derivation).perform middle =
        (.ok artifacts, (descriptor.close session).session) := by
  have derives := derives_derive consistent
  unfold close at closed ⊢
  split at closed
  · rename_i stage
    simp [artifacts?, stage] at unregistered
  · generalize descriptor.derive = stage at derives closed ⊢
    obtain ⟨_ | derivation, later⟩ := stage
    · cases closed
    · have name : later.name = descriptor.name := congrArg (·.request.name) derives.problem_eq
      simp only at closed ⊢
      split at closed
      · cases closed
      · rename_i made final ran
        cases closed
        have inserted : (later.insert derivation).perform session = (.ok artifacts, final) := ran
        simp only
        refine ⟨derivation, ?_⟩
        unfold insert at inserted
        split at inserted
        · obtain ⟨_, middle, checked, registered⟩ := Action.bind_eq_ok.mp inserted
          have queried := checkRegularity_queried valid later.name later.settings derivation
          rw [checked] at queried
          exact ⟨middle, derives.follows _ rfl, queried, name ▸ registered⟩
        · exact ⟨session, derives.follows _ rfl, .refl valid.coherent, name ▸ inserted⟩

theorem close_registered [Exact κ] {simplifier : Simplifier κ} (tame : simplifier.Tame)
    {session : Graph.Session κ} (reachable : Graph.Reachable simplifier session)
    (reached : Reached descriptor) (unregistered : descriptor.artifacts? = none)
    (solved : descriptor.problem.solve = .ok geometry)
    (admissible : geometry.Admissible session.supply.next) {artifacts : Artifacts κ}
    (closed : (descriptor.close session).outcome = .ok artifacts) :
    ∃ derivation : Derivation κ, derivation.geometry = geometry ∧ derivation.Sound ∧
      Registered derivation artifacts (descriptor.close session).session.graph := by
  have valid := (reachable.fit tame).valid
  obtain ⟨derivation, middle, follows, queried, ran⟩ :=
    close_eq_ok reached.consistent unregistered valid closed
  have same := follows.solved
  rw [solved, Except.ok.injEq] at same
  subst same
  have recorded : middle.graph.Recorded middle.supply.next := by
    rw [queried.supply, queried.graph]
    exact reachable.attainable.recorded tame.toModest
  have stillValid : middle.graph.Valid middle.supply.next := by
    rw [queried.supply]
    exact queried.valid valid
  exact ⟨derivation, rfl, follows.sound, register_registered stillValid recorded
    (queried.supply ▸ admissible) follows.sound (Problem.driven_solve _ follows.solved) ran⟩

end Descriptor

end Mechanism.Loop
