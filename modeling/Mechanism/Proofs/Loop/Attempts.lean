import Mechanism.Proofs.Graph.Revisions
import Mechanism.Proofs.Loop.Running

/-!
Attempts to close a loop that fail. What has been derived is kept, so that an attempt made again
comes to what the first one would have come to. What has been registered stays; but where nothing
is known of the coordinates that follow, nothing is registered before a failure.
-/

namespace Mechanism

variable {κ : Type} [Scalar κ]

namespace Graph

/-- The second graph has all that the first one has, with the same inputs and bindings, and besides
it only equations for allowed symbols of which the first one knows nothing. -/
structure Supplements (allowed : Symbol → Prop) (before after : Graph κ) : Prop where
  inputs : after.inputs = before.inputs
  store : Store.Keeps before.store after.store
  kept : ∀ symbol node, before.nodeOf? symbol = some node → after.nodeOf? symbol = some node
  added : ∃ nodes : List (Node κ), after.nodes = before.nodes ++ nodes ∧
    (∀ node ∈ nodes, before.Vacant node.symbol ∧ allowed node.symbol ∧
      node.equation.categories = .only .loopInternal) ∧
    ∀ symbol, (∀ node ∈ nodes, node.symbol ≠ symbol) →
      after.aliases.find? symbol = before.aliases.find? symbol

variable {allowed : Symbol → Prop} {before middle after : Graph κ} {symbol : Symbol}

theorem Supplements.refl (graph : Graph κ) : Supplements allowed graph graph where
  inputs := rfl
  store := .refl _
  kept := fun _ _ found => found
  added := ⟨[], (List.append_nil _).symm, List.forall_mem_nil _, fun _ _ => rfl⟩

theorem Supplements.vacant (supplements : Supplements allowed before after)
    (vacant : after.Vacant symbol) : before.Vacant symbol := by
  constructor
  · rw [← Bool.not_eq_true]
    intro live
    obtain ⟨node, found⟩ := isDefined_iff.mp live
    have still := isDefined_iff.mpr ⟨node, supplements.kept _ _ found⟩
    rw [vacant.undefined] at still
    cases still
  · rw [isInput, ← supplements.inputs]
    exact vacant.noInput

theorem nodeOf?_entered {node other : Node κ} (undefined : before.isDefined node.symbol = false)
    (found : before.nodeOf? symbol = some other) :
    (before.entered node).nodeOf? symbol = some other := by
  have differs : node.symbol ≠ symbol := by
    rintro rfl
    rw [isDefined_eq, found] at undefined
    cases undefined
  rw [nodeOf?_eq, Option.bind_eq_some_iff] at found
  obtain ⟨index, known, live⟩ := found
  change (before.appendNode node).nodeOf? symbol = some other
  rw [nodeOf?_eq, find?_definitions_appendNode, if_neg differs, known]
  rwa [Option.bind_some, node?, appendNode, List.getElem?_append_left (node?_lt live)]

theorem Supplements.addEquation (supplements : Supplements allowed before middle)
    {name : String} {value : Tensor κ} (among : allowed symbol)
    (defined : addEquation name symbol value (.only .loopInternal) middle = .ok after) :
    Supplements allowed before after := by
  rcases addEquation_ok defined with ⟨_, rfl⟩ | ⟨_, _, noInput, undefined, rfl⟩
  · exact supplements
  · obtain ⟨nodes, same, new, aliases⟩ := supplements.added
    generalize node_eq : Node.ofEquation
      ⟨name, symbol, middle.resolveAliases value, .only .loopInternal⟩ value = node
    obtain rfl : node.symbol = symbol := node_eq ▸ rfl
    refine ⟨supplements.inputs, supplements.store.trans (Store.keeps_evict _ _), ?_,
      nodes ++ [node], ?_, ?_, ?_⟩
    · exact fun other found live => nodeOf?_entered undefined (supplements.kept _ _ live)
    · change middle.nodes ++ [node] = _
      rw [same, List.append_assoc]
    · rw [List.forall_mem_append, List.forall_mem_singleton]
      exact ⟨new, supplements.vacant ⟨undefined, noInput⟩, among, node_eq ▸ rfl⟩
    · intro other apart
      rw [List.forall_mem_append, List.forall_mem_singleton] at apart
      refine Eq.trans ?_ (aliases other apart.1)
      exact (Table.find?_erase _ _ _).trans (if_neg apart.2)

end Graph

namespace Loop

theorem lasting_supplements {allowed : Symbol → Prop} (start : Graph.Session κ)
    (fresh : ∀ symbol : Symbol, start.supply.next ≤ symbol.number → allowed symbol) :
    Lasting allowed fun session => start.supply.next ≤ session.supply.next ∧
      Graph.Supplements allowed start.graph session.graph where
  asked := by
    rintro _ _ ⟨_⟩ ⟨le, supplements⟩
    exact ⟨le, supplements.inputs, supplements.store.trans (Graph.keeps_refresh _ _ _),
      supplements.kept, supplements.added⟩
  issued := fun _ _ ⟨le, supplements⟩ => ⟨fresh _ le, le.trans (Nat.le_succ _), supplements⟩
  defined := fun among ⟨le, supplements⟩ added => ⟨le, supplements.addEquation among added⟩

theorem Descriptor.extends_close (descriptor : Descriptor κ) (session : Graph.Session κ) :
    session.supply.next ≤ (descriptor.close session).session.supply.next ∧
      Graph.Supplements (fun _ => True) session.graph (descriptor.close session).session.graph :=
  have lasting : Lasting (fun _ => True) fun later : Graph.Session κ =>
      session.supply.next ≤ later.supply.next ∧
        Graph.Supplements (fun _ => True) session.graph later.graph :=
    lasting_supplements session fun _ _ => trivial
  lasting.close (fun _ _ _ _ => trivial) ⟨le_rfl, .refl _⟩

open Tensor in
/-- There is an equation and a closed form for each of the coordinates that follow. -/
structure Geometry.Square (geometry : Geometry κ) : Prop where
  column : geometry.constraint.Sized geometry.dependent.length 1
  solution : geometry.solution.length = geometry.dependent.length
  small : geometry.dependent.length ≤ largestSquare

namespace Problem

variable {problem : Problem κ} {posture : Posture} {a b : List JointId}

theorem column_mismatchInPlane {axis : Axis} :
    Ensures (problem.mismatchInPlane axis a b) (Tensor.Sized 2 1) := by
  intro constraint matched
  simp only [mismatchInPlane, bind_eq_ok, ofAlgebra_eq_ok, Tensor.select] at matched
  obtain ⟨_, _, entries, selected, same⟩ := matched
  have length : entries.length = 2 := (Simplifier.mapM_eq_ok selected).length_eq.symm
  rw [← Except.ok.inj same, ← length]
  exact Tensor.sized_ofColumn entries

theorem square_planar {u v : List Coordinate} {constraint : Tensor κ} {first second : Expr κ}
    (followers : v.length = 2) (column : constraint.Sized 2 1) :
    (⟨u, v, constraint, [first, second]⟩ : Geometry κ).Square :=
  ⟨followers.symm ▸ column, followers.symm, followers.symm ▸ (by decide)⟩

theorem square_fourBar : Ensures (problem.fourBar posture a b) Geometry.Square := by
  refine .bind fun ⟨crank, coupler⟩ => .bind fun rocker => .bind fun axis => ?_
  refine .bind_of length_partition fun ⟨u, v⟩ ⟨_, followers⟩ => ?_
  refine .bind fun _ => .bind fun _ => .bind fun _ => .bind fun _ => .bind fun _ => .bind fun _ => ?_
  exact .bind_of column_mismatchInPlane fun _ column => .pure (square_planar followers column)

theorem square_fourBarTrans : Ensures (problem.fourBarTrans a b) Geometry.Square := by
  refine .bind fun ⟨crank, coupler⟩ => .bind fun ⟨pivot, slider⟩ => .bind fun axis =>
    .bind fun direction => ?_
  refine .bind_of length_partition fun ⟨u, v⟩ ⟨_, followers⟩ => ?_
  refine .bind fun _ => .bind fun _ => .bind fun _ => .bind fun _ => .bind fun _ => .bind fun _ =>
    .bind fun _ => ?_
  exact .bind_of column_mismatchInPlane fun _ column => .pure (square_planar followers column)

theorem square_threeBarTrans : Ensures (problem.threeBarTrans a b) Geometry.Square := by
  refine .bind fun crank => .bind fun ⟨pivot, slider⟩ => .bind fun axis => .bind fun direction => ?_
  refine .bind_of length_partition fun ⟨u, v⟩ ⟨_, followers⟩ => ?_
  refine .bind fun _ => .bind fun _ => .bind fun _ => .bind fun _ => .bind fun _ => ?_
  exact .bind_of column_mismatchInPlane fun _ column => .pure (square_planar followers column)

theorem square_crankSlider : Ensures (problem.crankSlider posture a b) Geometry.Square := by
  refine .bind fun crank => .bind fun ⟨slider, rod⟩ => .bind fun axis => .bind fun direction => ?_
  refine .bind_of length_partition fun ⟨u, v⟩ ⟨_, followers⟩ => ?_
  refine .bind fun _ => .bind fun _ => .bind fun _ => .bind fun _ => .bind fun _ => .bind fun _ => ?_
  exact .bind_of column_mismatchInPlane fun _ column => .pure (square_planar followers column)

theorem square_steering : Ensures (problem.steering posture a b) Geometry.Square := by
  refine .bind fun _ => .bind fun ⟨rack, tieRod, knuckle⟩ => .bind fun axis =>
    .bind fun direction => ?_
  refine .bind_of length_partition fun ⟨u, v⟩ ⟨_, followers⟩ => ?_
  refine .bind fun _ => .bind fun _ => .bind fun _ => .bind fun _ => .bind fun _ => .bind fun _ => ?_
  exact .bind_of column_mismatchInPlane fun _ column => .pure (square_planar followers column)

theorem length_reach {leg : Leg κ} {target : Tensor κ} {solution : List (Expr κ)}
    (reached : leg.reach target = .ok solution) : solution.length = 3 := by
  simp only [Leg.reach, bind_eq_ok] at reached
  obtain ⟨_, _, _, _, _, _, rest⟩ := reached
  split at rest
  · cases rest
    rfl
  · obtain ⟨_, _, same⟩ := bind_eq_ok.mp rest
    cases same
    rfl

theorem square_hexapod {offsetAllowed : Bool}
    (anchors : ∀ joint ∈ problem.chain.joints, joint.anchor.shape = .vector 3) :
    Ensures (problem.hexapod offsetAllowed a b) Geometry.Square := by
  intro geometry solved
  simp only [hexapod, bind_eq_ok, check_eq_ok, Prod.exists] at solved
  obtain ⟨_, yaw, tilt, length, _, _, _, _, _, _, _, direction, _, rest⟩ := solved
  split at rest
  · simp only [check_eq_ok, bind_eq_ok, Prod.exists, ofAlgebra_eq_ok] at rest
    obtain ⟨_, _, _, u, v, parted, _, _, _, _, target, _, solution, reached, constraint, matched,
      same⟩ := rest
    cases same
    have followers : v.length = 3 := (length_partition _ parted).2
    obtain ⟨shape, entries⟩ := mismatch_spatial anchors matched
    refine ⟨?_, (length_reach reached).trans followers.symm, ?_⟩ <;> rw [followers]
    · exact ⟨shape, entries⟩
    · decide
  · obtain ⟨_, refused, _⟩ := bind_eq_ok.mp rest
    exact absurd refused unsupported_ne_ok

theorem square_coupled (independent : List Coordinate) (dependent : Coordinate) (driven : Expr κ) :
    (coupled independent dependent driven).Square :=
  ⟨⟨rfl, rfl⟩, rfl, (by decide : 1 ≤ Tensor.largestSquare)⟩

theorem square_transmission {ratio : κ} :
    Ensures (problem.transmission ratio) Geometry.Square := by
  intro geometry solved
  simp only [transmission, check_eq_ok, bind_eq_ok] at solved
  obtain ⟨_, ⟨independent, follower⟩, _, rest⟩ := solved
  split at rest
  · cases rest
    exact square_coupled ..
  · exact absurd rest unsupported_ne_ok

theorem square_explicitJoint {expression : Expr κ} :
    Ensures (problem.explicitJoint expression) Geometry.Square := by
  intro geometry solved
  simp only [explicitJoint, bind_eq_ok, check_eq_ok] at solved
  obtain ⟨⟨independent, follower⟩, _, _, same⟩ := solved
  cases same
  exact square_coupled ..

theorem square_solve
    (anchors : ∀ joint ∈ problem.chain.joints, joint.anchor.shape = .vector 3) :
    Ensures problem.solve Geometry.Square := by
  intro geometry solved
  simp only [solve, bind_eq_ok, Prod.exists] at solved
  obtain ⟨a, b, _, rest⟩ := solved
  revert geometry
  split
  · exact square_fourBar
  · exact square_fourBarTrans
  · exact square_threeBarTrans
  · exact square_crankSlider
  · exact square_steering
  · exact square_hexapod anchors
  · exact square_hexapod anchors
  · exact square_transmission
  · exact square_explicitJoint

end Problem

theorem Derivation.Follows.fits {problem : Problem κ} {derivation : Derivation κ}
    (follows : derivation.Follows problem)
    (anchors : ∀ joint ∈ problem.chain.joints, joint.anchor.shape = .vector 3) :
    derivation.Fits := by
  obtain ⟨column, solution, small⟩ := Problem.square_solve anchors _ follows.solved
  obtain ⟨other, same, sound, fits⟩ := Geometry.derives column solution small
  obtain ⟨solved, jacobians, drift⟩ := follows
  suffices derivation = other from this ▸ fits
  obtain ⟨geometry, first, second⟩ := derivation
  obtain ⟨_, first', second'⟩ := other
  obtain rfl : _ = geometry := same
  obtain rfl : first = first' := Except.ok.inj (jacobians.symm.trans sound.jacobians)
  obtain rfl : second = second' := Except.ok.inj (drift.symm.trans sound.drift)
  rfl

namespace Descriptor

theorem derive_again (descriptor : Descriptor κ) : descriptor.derive.2.derive = descriptor.derive := by
  have twice (descriptor : Descriptor κ) (geometry : Geometry κ) (jacobians : Jacobians κ)
      (stage : descriptor.progress = .linearizedOnce geometry jacobians) :
      (descriptor.linearizeTwice geometry jacobians).2.derive =
        descriptor.linearizeTwice geometry jacobians := by
    unfold linearizeTwice
    split <;> rename_i made
    · simp only [derive, stage, linearizeTwice, made]
    · rfl
  have once (descriptor : Descriptor κ) (geometry : Geometry κ)
      (stage : descriptor.progress = .geometrySolved geometry) :
      (descriptor.linearizeOnce geometry).2.derive = descriptor.linearizeOnce geometry := by
    unfold linearizeOnce
    split <;> rename_i made
    · simp only [derive, stage, linearizeOnce, made]
    · exact twice _ _ _ rfl
  cases stage : descriptor.progress with
  | unresolved =>
      cases made : descriptor.problem.solve with
      | error error => simp only [derive, stage, made]
      | ok geometry =>
          have unfolded : descriptor.derive =
              (descriptor.enter (.geometrySolved geometry)).linearizeOnce geometry := by
            simp only [derive, stage, made]
          rw [unfolded]
          exact once _ _ rfl
  | geometrySolved geometry =>
      have unfolded : descriptor.derive = descriptor.linearizeOnce geometry := by
        simp only [derive, stage]
      rw [unfolded]
      exact once _ _ stage
  | linearizedOnce geometry jacobians =>
      have unfolded : descriptor.derive = descriptor.linearizeTwice geometry jacobians := by
        simp only [derive, stage]
      rw [unfolded]
      exact twice _ _ _ stage
  | linearizedTwice derivation => simp only [derive, stage]
  | registered derivation artifacts => simp only [derive, stage]

theorem unregistered_derive {descriptor : Descriptor κ} (unregistered : descriptor.artifacts? = none) :
    descriptor.derive.2.artifacts? = none := by
  have twice (descriptor : Descriptor κ) (geometry : Geometry κ) (jacobians : Jacobians κ)
      (unregistered : descriptor.artifacts? = none) :
      (descriptor.linearizeTwice geometry jacobians).2.artifacts? = none := by
    unfold linearizeTwice
    split
    · exact unregistered
    · rfl
  have once (descriptor : Descriptor κ) (geometry : Geometry κ)
      (unregistered : descriptor.artifacts? = none) :
      (descriptor.linearizeOnce geometry).2.artifacts? = none := by
    unfold linearizeOnce
    split
    · exact unregistered
    · exact twice _ _ _ rfl
  unfold derive
  split
  · split
    · exact unregistered
    · exact once _ _ rfl
  · exact once _ _ unregistered
  · exact twice _ _ _ unregistered
  · exact unregistered
  · exact unregistered

variable {descriptor : Descriptor κ} {session : Graph.Session κ} {error : LoopError κ}

theorem unregistered_of_failed (failed : (descriptor.close session).outcome = .error error) :
    descriptor.artifacts? = none := by
  unfold artifacts?
  split
  · rename_i stage
    simp only [close, stage] at failed
    cases failed
  · rfl

/-- How an attempt fails: before the graph is asked for anything, or on the way into it. -/
inductive Fails (descriptor : Descriptor κ) (session : Graph.Session κ) (error : LoopError κ) :
    Attempt κ → Prop where
  | derived (refused : descriptor.derive.1 = .error error) :
      Fails descriptor session error ⟨.error error, descriptor.derive.2, session⟩
  | inserted {derivation : Derivation κ} {later : Graph.Session κ}
      (derived : descriptor.derive.1 = .ok derivation)
      (refused : (descriptor.derive.2.insert derivation).perform session = (.error error, later)) :
      Fails descriptor session error ⟨.error error, descriptor.derive.2, later⟩

theorem fails_close (failed : (descriptor.close session).outcome = .error error) :
    descriptor.Fails session error (descriptor.close session) := by
  have unfolded := close_unregistered (unregistered_of_failed failed) session
  rcases stage : descriptor.derive with ⟨refused | derivation, later⟩ <;>
    simp only [stage] at unfolded
  · rw [unfolded] at failed ⊢
    cases failed
    have fails : descriptor.Fails session error ⟨.error error, descriptor.derive.2, session⟩ :=
      .derived (by rw [stage])
    rwa [stage] at fails
  · rcases ran : (later.insert derivation).perform session with ⟨refused | artifacts, final⟩ <;>
      simp only [ran] at unfolded <;> rw [unfolded] at failed ⊢ <;> cases failed
    have fails : descriptor.Fails session error ⟨.error error, descriptor.derive.2, final⟩ :=
      .inserted (by rw [stage]) (by rw [stage]; exact ran)
    rwa [stage] at fails

theorem close_again (failed : (descriptor.close session).outcome = .error error)
    (later : Graph.Session κ) :
    (descriptor.close session).descriptor.close later = descriptor.close later := by
  have unregistered := unregistered_of_failed failed
  have reached : (descriptor.close session).descriptor = descriptor.derive.2 := by
    have fails := fails_close failed
    generalize descriptor.close session = attempt at fails
    cases fails <;> rfl
  rw [reached, close_unregistered (unregistered_derive unregistered),
    close_unregistered unregistered, derive_again]

end Descriptor

section

/-- The symbols of the coordinates that follow differ, and the graph knows nothing of them. -/
structure Geometry.New (graph : Graph κ) (geometry : Geometry κ) : Prop where
  distinct : (Coordinate.allSymbols geometry.dependent).Nodup
  vacant : ∀ symbol ∈ Coordinate.allSymbols geometry.dependent, graph.Vacant symbol

variable {session : Graph.Session κ}

theorem room_of_valid {symbols : List Symbol} (valid : session.graph.Valid session.supply.next)
    (vacant : ∀ symbol ∈ symbols, session.graph.Vacant symbol)
    (issued : ∀ symbol ∈ symbols, symbol.number < session.supply.next) :
    Room session symbols where
  indexed := by
    intro symbol index found
    obtain ⟨node, here, _⟩ := Option.map_eq_some_iff.mp (valid.found found)
    exact (List.getElem?_eq_some_iff.mp here).1
  fresh := by
    intro symbol fresh
    constructor <;> rw [← Bool.not_eq_true] <;> intro known
    · exact absurd (valid.defined_issued known) (not_lt.mpr fresh)
    · exact absurd (valid.inputs known) (not_lt.mpr fresh)
  vacant := vacant
  issued := issued

theorem Derivation.Follows.registers (inverts : Tensor.InvertsUnknowns κ) {problem : Problem κ}
    {derivation : Derivation κ} (follows : derivation.Follows problem)
    (valid : session.graph.Valid session.supply.next)
    (chained : problem.chain.Regular session.supply.next)
    (regular : problem.request.Regular session.supply.next)
    (new : derivation.geometry.New session.graph) (name : String) :
    Succeeds (register name derivation) session
      fun artifacts later => Adds artifacts.definitions session later := by
  have solved := Problem.regular_solve chained regular follows.solved
  have coordinates : ∀ symbol ∈ Coordinate.allSymbols derivation.geometry.dependent,
      symbol.shape = .scalar ∧ symbol.number < session.supply.next := by
    intro symbol member
    obtain ⟨coordinate, among, own⟩ := Coordinate.mem_allSymbols.mp member
    exact solved.coordinates coordinate (List.mem_append_right _ among) symbol own
  exact register_succeeds inverts (follows.fits chained.shapes)
    (room_of_valid valid new.vacant fun symbol member => (coordinates symbol member).2)
    new.distinct (fun symbol member => (coordinates symbol member).1) name

theorem Geometry.New.queried {geometry : Geometry κ} {later : Graph.Session κ}
    (new : geometry.New session.graph) (queried : Graph.Queried session later) :
    geometry.New later.graph where
  distinct := new.distinct
  vacant := by
    intro symbol member
    rw [queried.graph]
    exact ⟨(new.vacant symbol member).undefined, (new.vacant symbol member).noInput⟩

namespace Descriptor

variable {descriptor : Descriptor κ} {later : Graph.Session κ} {derivation : Derivation κ}

inductive Whole (session : Graph.Session κ) :
    Except (LoopError κ) (Artifacts κ) × Graph.Session κ → Prop where
  | registered {artifacts : Artifacts κ} {later : Graph.Session κ}
      (adds : Adds artifacts.definitions session later) : Whole session (.ok artifacts, later)
  | refused {error : LoopError κ} {later : Graph.Session κ}
      (queried : Graph.Queried session later) : Whole session (.error error, later)

theorem whole_insert (inverts : Tensor.InvertsUnknowns κ)
    (follows : derivation.Follows descriptor.problem)
    (valid : session.graph.Valid session.supply.next)
    (chained : descriptor.problem.chain.Regular session.supply.next)
    (regular : descriptor.problem.request.Regular session.supply.next)
    (new : derivation.geometry.New session.graph) :
    Whole session ((descriptor.insert derivation).perform session) := by
  have queried := checkRegularity_queried valid descriptor.name descriptor.settings derivation
  unfold insert
  generalize descriptor.settings.checkSingularity = checked
  cases checked with
  | false =>
      obtain ⟨artifacts, later, ran, adds⟩ :=
        follows.registers inverts valid chained regular new descriptor.name
      exact ran ▸ .registered adds
  | true =>
      simp only [if_true]
      rw [Action.perform_bind]
      generalize (checkRegularity descriptor.name descriptor.settings derivation).perform session =
        answer at queried
      obtain ⟨_ | _, middle⟩ := answer
      · exact .refused queried
      · obtain ⟨artifacts, later, ran, adds⟩ := follows.registers inverts
          (queried.supply ▸ queried.valid valid) (queried.supply ▸ chained)
          (queried.supply ▸ regular) (new.queried queried) descriptor.name
        change Whole session ((register descriptor.name derivation).perform middle)
        change (register descriptor.name derivation).perform middle = _ at ran
        refine ran ▸ Whole.registered ?_
        rwa [Adds, queried.graph] at adds

/-- The symbols that an attempt to close the loop may define. -/
def MayDefine (descriptor : Descriptor κ) (session : Graph.Session κ) (symbol : Symbol) : Prop :=
  (∃ geometry, descriptor.problem.solve = .ok geometry ∧
    symbol ∈ Coordinate.allSymbols geometry.dependent) ∨ session.supply.next ≤ symbol.number

/-- The coordinates that the loop is to determine differ, and are new to the graph. -/
def Welcome (descriptor : Descriptor κ) (graph : Graph κ) : Prop :=
  ∀ geometry, descriptor.problem.solve = .ok geometry → geometry.New graph

theorem supplements_close (consistent : descriptor.Consistent) (session : Graph.Session κ) :
    Graph.Supplements (descriptor.MayDefine session) session.graph
      (descriptor.close session).session.graph := by
  have fresh : ∀ symbol : Symbol, session.supply.next ≤ symbol.number →
      descriptor.MayDefine session symbol := fun _ => .inr
  have lasting := lasting_supplements session fresh
  refine (lasting.close ?_ ⟨le_rfl, .refl session.graph⟩).2
  intro derivation derived symbol member
  exact .inl ⟨_, ((derives_derive consistent).follows derivation derived).solved, member⟩

theorem whole_close (inverts : Tensor.InvertsUnknowns κ) (consistent : descriptor.Consistent)
    (unregistered : descriptor.artifacts? = none)
    (valid : session.graph.Valid session.supply.next)
    (chained : descriptor.problem.chain.Regular session.supply.next)
    (regular : descriptor.problem.request.Regular session.supply.next)
    (welcome : descriptor.Welcome session.graph) :
    Whole session ((descriptor.close session).outcome, (descriptor.close session).session) := by
  have derives := derives_derive consistent
  rw [close_unregistered unregistered]
  rcases stage : descriptor.derive with ⟨_ | derivation, later⟩ <;> rw [stage] at derives
  · exact .refused (.refl valid.coherent)
  · have follows := derives.follows derivation rfl
    have new := welcome _ follows.solved
    rw [← derives.problem_eq] at follows chained regular
    have whole := whole_insert inverts follows valid chained regular new
    simp only
    generalize (later.insert derivation).perform session = result at whole ⊢
    cases whole with
    | registered adds => exact .registered adds
    | refused queried => exact .refused queried

theorem queried_close (inverts : Tensor.InvertsUnknowns κ) (reached : Reached descriptor)
    (valid : session.graph.Valid session.supply.next)
    (chained : descriptor.problem.chain.Regular session.supply.next)
    (regular : descriptor.problem.request.Regular session.supply.next) {error : LoopError κ}
    (failed : (descriptor.close session).outcome = .error error)
    (welcome : descriptor.Welcome session.graph) :
    Graph.Queried session (descriptor.close session).session := by
  have whole := whole_close inverts reached.consistent (unregistered_of_failed failed) valid chained
    regular welcome
  rw [failed] at whole
  cases whole with
  | refused queried => exact queried

/-- What a failed attempt to close a loop leaves behind. Inputs, bindings and live equations stay,
and nothing is added but equations for symbols that the graph knows nothing of; and nothing is
added at all if the coordinates that are to follow are new to the graph. An attempt that is made
again comes to the same as if there had been none, and adds just one set of equations. -/
theorem close_refused (inverts : Tensor.InvertsUnknowns κ) {simplifier : Simplifier κ}
    (tame : simplifier.Tame) (reachable : Graph.Reachable simplifier session)
    (reached : Reached descriptor)
    (chained : descriptor.problem.chain.Regular session.supply.next)
    (regular : descriptor.problem.request.Regular session.supply.next) {error : LoopError κ}
    (failed : (descriptor.close session).outcome = .error error) :
    Graph.Supplements (descriptor.MayDefine session) session.graph
        (descriptor.close session).session.graph ∧
      (descriptor.Welcome session.graph →
        Graph.Queried session (descriptor.close session).session) ∧
      ∀ later, (descriptor.close session).descriptor.close later = descriptor.close later ∧
        (Graph.Reachable simplifier later → session.supply.next ≤ later.supply.next →
          descriptor.Welcome later.graph →
          ∀ artifacts, (descriptor.close later).outcome = .ok artifacts →
            Adds artifacts.definitions later (descriptor.close later).session) := by
  have unregistered := unregistered_of_failed failed
  have consistent := reached.consistent
  refine ⟨supplements_close consistent session,
    queried_close inverts reached (reachable.fit tame).valid chained regular failed, fun later =>
      ⟨close_again failed later, fun again le welcome artifacts closed => ?_⟩⟩
  have whole := whole_close inverts consistent unregistered (again.fit tame).valid
    (chained.mono le) (regular.mono le) welcome
  rw [closed] at whole
  cases whole with
  | registered adds => exact adds

end Descriptor

end

theorem Sample.regular_along (limit : Nat) (distance : ℝ) : (Sample.along distance).Regular limit :=
  ⟨rfl, fun _ member _ occurs => absurd (Tensor.mem_atoms.mpr ⟨_, member, occurs⟩)
    Sample.not_mem_atoms_along⟩

namespace GuardedSquare

open Sample

open Mechanism.Graph in
/-- The acceleration of the output is an input already. -/
noncomputable def taken : Session RealNumber :=
  (Command.declareInput output.acceleration (.only .derivativeOfState) none).apply session

theorem reachable_taken : Graph.Reachable Simplifier.keep taken :=
  .step _ reachable (by decide : 8 < 9)

noncomputable def takenInputs : Table Symbol CategorySet :=
  ⟨inputs.entries ++ [(output.acceleration, .only .derivativeOfState)]⟩

theorem tidy_taken : taken.graph.Tidy := ⟨nofun, fun _ => rfl⟩

theorem taken_refused : ∃ error, (descriptor.close taken).outcome = .error error := by
  cases closed : (descriptor.close taken).outcome with
  | error error => exact ⟨error, rfl⟩
  | ok artifacts =>
      obtain ⟨derivation, same, _, registered⟩ := Descriptor.close_registered Simplifier.keep_tame
        reachable_taken (.new ..) rfl solved admissible closed
      obtain ⟨_, _, _, _, each⟩ := registered.accelerations
      have last : (derivation.geometry.dependent.map Coordinate.acceleration)[0]? =
          some output.acceleration := by
        rw [same]
        rfl
      obtain ⟨_, _, node, found, _⟩ := each 0 output.acceleration last
      have tidied : (descriptor.close taken).session.graph.Tidy ∧
          (descriptor.close taken).session.graph.inputs = takenInputs :=
        (lasting_tidy takenInputs).close (fun _ _ _ _ => trivial) ⟨tidy_taken, rfl⟩
      obtain ⟨tidy, inputs⟩ := tidied
      rw [Graph.nodeOf?_eq, Option.bind_eq_some_iff] at found
      obtain ⟨index, defined, _⟩ := found
      have noInput := tidy.defined _ index defined
      rw [Graph.isInput, inputs] at noInput
      exact absurd noInput (by decide)

theorem follows_linkage : ∃ derivation : Derivation RealNumber,
    descriptor.derive.1 = .ok derivation ∧ derivation.geometry = geometry := by
  have column : geometry.constraint.Sized geometry.dependent.length 1 := ⟨rfl, rfl⟩
  obtain ⟨derivation, same, sound, _⟩ := Geometry.derives column rfl (by decide)
  obtain ⟨_, jacobians, drift⟩ := derivation
  obtain rfl : _ = geometry := same
  refine ⟨⟨geometry, jacobians, drift⟩, ?_, rfl⟩
  simp only [Descriptor.derive, descriptor, solved, Descriptor.enter, Descriptor.linearizeOnce,
    sound.jacobians, Descriptor.linearizeTwice, sound.drift]

theorem position_registered {derivation : Derivation RealNumber}
    (same : derivation.geometry = geometry) (name : String) :
    ((register name derivation).perform taken).2.graph.isDefined output.position = true := by
  obtain ⟨rest, maintains, split⟩ := (lasting_defined output.position
    fun _ : Graph.Node RealNumber => True).exists_rest name derivation
      (fun _ _ => trivial) fun _ _ => trivial
  obtain ⟨node, own, live, added⟩ : ∃ node : Graph.Node RealNumber,
      node.symbol = output.position ∧ node.removed = false ∧
        Graph.addEquation output.position.name output.position
          (.ofExpr (Guarded.guard crank.atom square)) (.only .loopInternal) taken.graph =
            .ok ((taken.graph.entered node).invalidate output.position) :=
    Graph.addEquation_vacant (by decide) rfl ⟨rfl, rfl⟩
  have defined : (define output.position (.ofExpr (Guarded.guard crank.atom square))).perform taken =
      (.ok (), { taken with graph := (taken.graph.entered node).invalidate output.position }) :=
    define_eq_ok.mpr ⟨_, added, rfl⟩
  have indexed : taken.graph.Indexed := nofun
  have lawful := (reachable_taken.fit Simplifier.keep_tame).valid.toLawful
  obtain ⟨_, last, found, _⟩ := maintains
    { taken with graph := (taken.graph.entered node).invalidate output.position }
    ⟨indexed.appendNode node, node, (lawful.nodeOf?_appendNode live _).trans (if_pos own), trivial⟩
  refine Graph.isDefined_iff.mpr ⟨last, ?_⟩
  rw [split, same]
  change ((((define output.position (.ofExpr (Guarded.guard crank.atom square)) >>= fun _ =>
    pure ()) >>= fun _ => rest) : Action RealNumber _).perform taken).2.graph.nodeOf? _ = some last
  rw [Action.perform_bind, Action.perform_bind, defined]
  exact found

/-- The attempt fails, and leaves the position of the output defined. -/
theorem taken_position : (∃ error, (descriptor.close taken).outcome = .error error) ∧
    taken.graph.isDefined output.position = false ∧
      (descriptor.close taken).session.graph.isDefined output.position = true := by
  obtain ⟨error, failed⟩ := taken_refused
  refine ⟨⟨error, failed⟩, rfl, ?_⟩
  have fails := Descriptor.fails_close failed
  generalize descriptor.close taken = attempt at fails
  obtain ⟨derivation, derived, same⟩ := follows_linkage
  cases fails with
  | derived refused => exact absurd (derived.symm.trans refused) (by simp)
  | inserted again refused =>
      obtain rfl := Except.ok.inj (derived.symm.trans again)
      have unchecked : descriptor.derive.2.settings.checkSingularity = false := by
        rw [settings_derive]
        rfl
      have registered := position_registered same descriptor.derive.2.name
      simp only [Descriptor.insert, unchecked] at refused
      change (register descriptor.derive.2.name derivation).perform taken = _ at refused
      rw [refused] at registered
      exact registered

theorem chained : linkage.chain.Regular 9 where
  coordinates := by
    intro joint member
    rcases coordinate_of_mem member with same | same <;> rw [same] <;> decide
  shapes := by
    intro joint member
    obtain rfl | rfl : joint = _ ∨ joint = _ := by simpa [linkage] using member
    · rfl
    · rfl
  anchors := by
    intro joint member
    obtain rfl | rfl : joint = _ ∨ joint = _ := by simpa [linkage] using member
    · exact regular_along ..
    · exact regular_along ..

theorem requested : linkage.request.Regular 9 where
  frameA := regular_along ..
  frameB := regular_along ..
  expression := by
    rintro _ ⟨⟩
    exact List.forall_mem_singleton.mp admissible.solution

theorem welcome : descriptor.Welcome session.graph := by
  intro other again
  obtain rfl : geometry = other := Except.ok.inj (solved.symm.trans again)
  exact ⟨by decide, room.vacant⟩

/-- Made again where the acceleration is not taken, the attempt adds one set of equations. -/
theorem taken_again : (∃ error, (descriptor.close taken).outcome = .error error) ∧
    Graph.Supplements (descriptor.MayDefine taken) taken.graph
      (descriptor.close taken).session.graph ∧
    ∃ artifacts, ((descriptor.close taken).descriptor.close session).outcome = .ok artifacts ∧
      Adds artifacts.definitions session
        ((descriptor.close taken).descriptor.close session).session := by
  obtain ⟨error, failed⟩ := taken_refused
  have reached : Descriptor.Reached descriptor := .new ..
  obtain ⟨supplements, _, again⟩ := Descriptor.close_refused Tensor.invertsUnknowns
    Simplifier.keep_tame reachable_taken reached chained requested failed
  obtain ⟨same, adds⟩ := again session
  obtain ⟨artifacts, closed⟩ := closes
  refine ⟨⟨error, failed⟩, supplements, artifacts, ?_, ?_⟩
  · rw [same, closed]
  · rw [same]
    exact adds reachable le_rfl welcome artifacts closed

end GuardedSquare

end Loop

end Mechanism
