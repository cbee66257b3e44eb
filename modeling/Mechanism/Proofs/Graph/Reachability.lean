import Mechanism.Proofs.Graph.Building
import Mechanism.Proofs.Graph.Reduction

/-!
Commands step by step. A command comes to a chain of single changes, to a build with all its passes,
or to a reduction, and each of them keeps the graph as it should be. So the invariant of a graph holds
in every session that can be reached.
-/

open Relation (ReflTransGen)

namespace Mechanism.Graph

open Mechanism.Graph.Action

variable {κ : Type} [Scalar κ] {limit : Nat} {simplifier : Simplifier κ}
  {session before after : Session κ}

/-- The graph of the session is as it should be, and still has its simplifier. -/
structure Fit (simplifier : Simplifier κ) (session : Session κ) : Prop where
  valid : session.graph.Valid session.supply.next
  simplifier_eq : session.graph.simplifier = simplifier

theorem simplifier_bindInput {graph after : Graph κ} {symbol : Symbol} {value : Tensor κ}
    (bound : bindInput symbol value graph = .ok after) : after.simplifier = graph.simplifier := by
  obtain ⟨_, rfl⟩ := bindInput_ok bound
  rfl

theorem simplifier_addInput {graph after : Graph κ} {symbol : Symbol} {categories : CategorySet}
    (added : addInput symbol categories graph = .ok after) : after.simplifier = graph.simplifier := by
  rcases addInput_ok added with rfl | ⟨_, rfl⟩ <;> rfl

theorem simplifier_addEquation {graph after : Graph κ} {name : String} {symbol : Symbol}
    {value : Tensor κ} {categories : CategorySet}
    (added : addEquation name symbol value categories graph = .ok after) :
    after.simplifier = graph.simplifier := by
  rcases addEquation_ok added with ⟨_, rfl⟩ | ⟨_, _, _, _, rfl⟩ <;> rfl

theorem simplifier_reduce {graph after : Graph κ} {kept : CategorySet} {reduction : Reduction}
    (reduced : reduce graph kept = .ok (reduction, after)) : after.simplifier = graph.simplifier := by
  obtain ⟨_, indices, _, _, _, rfl⟩ := reduce_eq_ok reduced
  exact (foldl_dropNode_dropped indices graph).simplifier

theorem settings_reduce {graph after : Graph κ} {kept : CategorySet} {reduction : Reduction}
    (reduced : reduce graph kept = .ok (reduction, after)) : after.settings = graph.settings := by
  obtain ⟨_, indices, _, _, _, rfl⟩ := reduce_eq_ok reduced
  exact (foldl_dropNode_dropped indices graph).settings

/-- A single change of a session, other than by a build or a reduction. -/
inductive Change : Session κ → Session κ → Prop where
  | issue {session : Session κ} (name : String) (shape : Shape) (domain : Domain) :
      Change session { session with supply := (session.supply.fresh name shape domain).2 }
  | input {session : Session κ} {symbol : Symbol} {categories : CategorySet} {graph : Graph κ}
      (issued : symbol.number < session.supply.next)
      (added : addInput symbol categories session.graph = .ok graph) :
      Change session { session with graph := graph }
  | bind {session : Session κ} {symbol : Symbol} {value : Tensor κ} {graph : Graph κ}
      (bound : bindInput symbol value session.graph = .ok graph) :
      Change session { session with graph := graph }
  | define {session : Session κ} {name : String} {symbol : Symbol} {value : Tensor κ}
      {categories : CategorySet} {graph : Graph κ} (issued : symbol.number < session.supply.next)
      (valueIssued : value.Issued session.supply.next)
      (added : addEquation name symbol value categories session.graph = .ok graph) :
      Change session { session with graph := graph }
  | evaluate {before after : Session κ} (evaluates : Evaluates before after) : Change before after
  | relink {session : Session κ} : Change session { session with graph := session.graph.relink }

def Changes : Session κ → Session κ → Prop := ReflTransGen Change

theorem Fit.queried {later : Session κ} (fit : Fit simplifier session)
    (queried : Queried session later) : Fit simplifier later := by
  refine ⟨?_, ?_⟩
  · rw [queried.supply]
    exact queried.valid fit.valid
  · rw [queried.graph]
    exact fit.simplifier_eq

theorem Change.fit (change : Change before after) (fit : Fit simplifier before) :
    Fit simplifier after := by
  obtain ⟨valid, same⟩ := fit
  cases change with
  | issue name shape domain => exact ⟨valid.mono (Nat.le_succ _), same⟩
  | input issued added => exact ⟨valid.addInput issued added, (simplifier_addInput added).trans same⟩
  | bind bound => exact ⟨valid.bindInput bound, (simplifier_bindInput bound).trans same⟩
  | define issued valueIssued added =>
      exact ⟨valid.addEquation issued valueIssued added, (simplifier_addEquation added).trans same⟩
  | evaluate evaluates => exact Fit.queried ⟨valid, same⟩ (evaluates.queried valid)
  | relink => exact ⟨valid.relink, same⟩

theorem Change.settings (change : Change before after) :
    after.graph.settings = before.graph.settings := by
  cases change with
  | issue => rfl
  | input _ added => rcases addInput_ok added with rfl | ⟨_, rfl⟩ <;> rfl
  | bind bound =>
      obtain ⟨_, rfl⟩ := bindInput_ok bound
      rfl
  | define _ _ added => rcases addEquation_ok added with ⟨_, rfl⟩ | ⟨_, _, _, _, rfl⟩ <;> rfl
  | evaluate evaluates =>
      obtain ⟨_⟩ := evaluates
      rfl
  | relink => rfl

theorem Changes.fit (changes : Changes before after) (fit : Fit simplifier before) :
    Fit simplifier after := by
  induction changes with
  | refl => exact fit
  | tail _ last ih => exact last.fit ih

theorem Changes.invariant {property : Session κ → Prop} (changes : Changes before after)
    (fit : Fit simplifier before)
    (each : ∀ {first second : Session κ}, Change first second → Fit simplifier first →
      property first → property second) (start : property before) : property after := by
  induction changes with
  | refl => exact start
  | tail earlier last ih => exact each last (Changes.fit earlier fit) ih

def Session.rebuilt (session : Session κ) (levels : List (List Nat)) : Session κ :=
  ⟨(session.graph.relink.optimized session.supply).graph.finished levels,
    (session.graph.relink.optimized session.supply).supply⟩

inductive Outcome (session : Session κ) : Command κ → Session κ → Prop where
  | changed {command : Command κ} {later : Session κ} (changes : Changes session later) :
      Outcome session command later
  | built {levels : List (List Nat)} (orderly : session.graph.Orderly session.supply.next)
      (found : (session.graph.relink.optimized session.supply).graph.findLevels = .ok levels) :
      Outcome session .build (session.rebuilt levels)
  | reduced {kept : CategorySet} {reduction : Reduction} {graph : Graph κ}
      (reduced : reduce session.graph kept = .ok (reduction, graph)) :
      Outcome session (.reduce kept) { session with graph := graph }

theorem perform_ignore {α : Type} (action : Action κ α) :
    ((do let _ ← action : Action κ Unit).perform session).2 = (action.perform session).2 := by
  rw [perform_bind]
  rcases action.perform session with ⟨_ | _, later⟩ <;> rfl

theorem changes_update {change : Graph κ → Except (GraphError κ) (Graph κ)}
    (step : ∀ graph, change session.graph = .ok graph →
      Change session { session with graph := graph }) :
    Changes session ((update change).perform session).2 := by
  rw [perform_update]
  cases changed : change session.graph with
  | error _ => exact ReflTransGen.refl
  | ok graph => exact ReflTransGen.single (step graph changed)

theorem changes_declareInput {symbol : Symbol} (issued : symbol.number < session.supply.next)
    (categories : CategorySet) (initial : Option (Tensor κ)) :
    Changes session ((declareInput symbol categories initial).perform session).2 := by
  have added : Changes session ((update (addInput symbol categories)).perform session).2 :=
    changes_update fun _ added => Change.input issued added
  unfold declareInput
  rw [perform_bind]
  rcases outcome : (update (addInput symbol categories)).perform session with ⟨_ | _, later⟩
  · rwa [outcome] at added
  · rw [outcome] at added
    cases initial with
    | none => exact added
    | some value => exact added.trans (changes_update fun _ bound => Change.bind bound)

theorem changes_register (name : String) {symbol : Symbol} {value : Tensor κ}
    (issued : symbol.number < session.supply.next) (valueIssued : value.Issued session.supply.next)
    (categories : CategorySet) :
    Changes session ((Graph.register name symbol value categories).perform session).2 := by
  have added : Changes session
      ((update (addEquation name symbol value categories)).perform session).2 :=
    changes_update fun _ added => Change.define issued valueIssued added
  rw [Graph.register, perform_bind]
  rcases outcome : (update (addEquation name symbol value categories)).perform session with
    ⟨_ | _, later⟩
  · rwa [outcome] at added
  · rwa [outcome] at added

theorem changes_define (name : String) {value : Tensor κ}
    (valueIssued : value.Issued session.supply.next) (categories : CategorySet) :
    Changes session ((Graph.define name value categories).perform session).2 := by
  rw [Graph.define, perform_bind, perform_freshSymbol]
  exact ReflTransGen.head (Change.issue name value.shape .real)
    (changes_register name (Nat.lt_succ_self _) (valueIssued.mono (Nat.le_succ _)) categories)

theorem changes_of_evaluates (evaluates : ReflTransGen Evaluates before after) :
    Changes before after :=
  ReflTransGen.mono (fun _ _ step => Change.evaluate step) _ _ evaluates

theorem outcome_build (fit : Fit simplifier session) (modest : simplifier.Modest) :
    Outcome session .build (Graph.build.perform session).2 := by
  rcases build_outcome fit.valid.toLawful (fit.simplifier_eq ▸ modest) with
    ⟨error, fails | fails⟩ | ⟨orderly, levels, report, found, succeeds⟩
  · rw [fails]
    exact Outcome.changed ReflTransGen.refl
  · rw [fails]
    exact Outcome.changed (ReflTransGen.single Change.relink)
  · rw [succeeds]
    exact Outcome.built orderly found

theorem outcome_reduce (session : Session κ) (kept : CategorySet) :
    Outcome session (.reduce kept) ((keepOnly kept).perform session).2 := by
  rw [keepOnly, perform_bind, perform_getGraph]
  simp only
  split
  · rename_i reduction graph reduced
    rw [perform_bind, perform_setGraph]
    exact Outcome.reduced reduced
  · exact Outcome.changed ReflTransGen.refl

theorem Fit.outcome (fit : Fit simplifier session) (modest : simplifier.Modest) (command : Command κ)
    (issued : command.Issued session.supply) :
    Outcome session command (command.apply session) := by
  unfold Command.apply
  cases command with
  | issue name shape domain =>
      exact Outcome.changed (ReflTransGen.single (Change.issue name shape domain))
  | declareInput symbol categories initial =>
      exact Outcome.changed (changes_declareInput issued categories initial)
  | register name symbol value categories =>
      rw [Command.action, perform_ignore]
      exact Outcome.changed (changes_register name issued.1 issued.2 categories)
  | define name value categories =>
      rw [Command.action, perform_ignore]
      exact Outcome.changed (changes_define name issued categories)
  | bind symbol value => exact Outcome.changed (changes_update fun _ bound => Change.bind bound)
  | query symbol =>
      rw [Command.action, perform_ignore]
      exact Outcome.changed (changes_of_evaluates (valueOf_evaluates session symbol))
  | queryNumbers symbol =>
      rw [Command.action, perform_ignore]
      exact Outcome.changed (changes_of_evaluates (numbersOf_evaluates session symbol))
  | build =>
      rw [Command.action, perform_ignore]
      exact outcome_build fit modest
  | reduce kept =>
      rw [Command.action, perform_ignore]
      exact outcome_reduce session kept

theorem Outcome.fit {command : Command κ} {later : Session κ}
    (outcome : Outcome session command later) (fit : Fit simplifier session)
    (modest : simplifier.Modest) : Fit simplifier later := by
  obtain ⟨valid, same⟩ := fit
  cases outcome with
  | changed changes => exact changes.fit ⟨valid, same⟩
  | built orderly found =>
      subst same
      exact ⟨valid.finished_optimized orderly modest found,
        (optimized_improved orderly.relink modest).simplifier⟩
  | reduced reduced => exact ⟨valid.reduce reduced, (simplifier_reduce reduced).trans same⟩

theorem Outcome.settings {command : Command κ} {later : Session κ}
    (outcome : Outcome session command later) (modest : session.graph.simplifier.Modest) :
    later.graph.settings = session.graph.settings := by
  cases outcome with
  | changed changes =>
      induction changes with
      | refl => rfl
      | tail _ last ih => exact last.settings.trans ih
  | built orderly _ => exact (optimized_improved orderly.relink modest).settings
  | reduced reduced => exact settings_reduce reduced

theorem new_ok {settings : Settings} {graph : Graph κ} (made : new settings simplifier = .ok graph) :
    graph = ofSettings settings simplifier := by
  unfold new at made
  split at made
  · cases made
  · cases made
    rfl

theorem Fit.apply (fit : Fit simplifier session) (modest : simplifier.Modest) (command : Command κ)
    (issued : command.Issued session.supply) : Fit simplifier (command.apply session) :=
  (fit.outcome modest command issued).fit fit modest

theorem Attainable.fit (attainable : Attainable simplifier session) (modest : simplifier.Modest) :
    Fit simplifier session := by
  induction attainable with
  | start supply made =>
      obtain rfl := new_ok made
      exact ⟨valid_ofSettings _ simplifier, rfl⟩
  | step command _ issued ih => exact ih.apply modest command issued

theorem Reachable.fit (reachable : Reachable simplifier session) (tame : simplifier.Tame) :
    Fit simplifier session :=
  reachable.attainable.fit tame.toModest

theorem Reachable.fault? (reachable : Reachable simplifier session) (tame : simplifier.Tame) :
    session.graph.settings.fault? = none := by
  induction reachable with
  | @start settings graph supply made =>
      unfold new at made
      split at made
      · cases made
      · rename_i sound
        cases made
        exact sound
  | @step session command before admissible ih =>
      have fit := before.fit tame
      rw [(fit.outcome tame.toModest command admissible.issued).settings
        (fit.simplifier_eq ▸ tame.toModest)]
      exact ih

theorem Attainable.invariant (property : Session κ → Prop) (modest : simplifier.Modest)
    (start : ∀ settings supply, property ⟨ofSettings settings simplifier, supply⟩)
    (changed : ∀ {before after : Session κ}, Change before after → Fit simplifier before →
      property before → property after)
    (built : ∀ {session : Session κ} {levels : List (List Nat)}, Fit simplifier session →
      property session → session.graph.Orderly session.supply.next →
      (session.graph.relink.optimized session.supply).graph.findLevels = .ok levels →
      property (session.rebuilt levels))
    (reduced : ∀ {session : Session κ} {kept : CategorySet} {reduction : Reduction}
      {graph : Graph κ}, Fit simplifier session → property session →
      reduce session.graph kept = .ok (reduction, graph) →
      property { session with graph := graph })
    (attainable : Attainable simplifier session) : property session := by
  induction attainable with
  | start supply made =>
      obtain rfl := new_ok made
      exact start _ supply
  | @step session command before issued ih =>
      have fit := before.fit modest
      have outcome := fit.outcome modest command issued
      generalize command.apply session = later at outcome
      cases outcome with
      | changed changes => exact changes.invariant fit changed ih
      | built orderly found => exact built fit ih orderly found
      | reduced same => exact reduced fit ih same

theorem Placed.addInput {graph after : Graph κ} (placed : graph.Placed) {symbol : Symbol}
    {categories : CategorySet} (added : Graph.addInput symbol categories graph = .ok after) :
    after.Placed := by
  rcases addInput_ok added with rfl | ⟨_, rfl⟩
  · exact placed
  · exact placed.of_node? fun _ => rfl

theorem Placed.bindInput {graph after : Graph κ} (placed : graph.Placed) {symbol : Symbol}
    {value : Tensor κ} (bound : Graph.bindInput symbol value graph = .ok after) : after.Placed := by
  obtain ⟨_, rfl⟩ := bindInput_ok bound
  exact placed.of_node? fun _ => rfl

theorem Queried.placed (queried : Queried before after) (placed : before.graph.Placed) :
    after.graph.Placed := by
  rw [queried.graph]
  exact placed.of_node? fun _ => rfl

theorem placed_update {change : Graph κ → Except (GraphError κ) (Graph κ)}
    (placed : session.graph.Placed)
    (step : ∀ graph, change session.graph = .ok graph → graph.Placed) :
    ((update change).perform session).2.graph.Placed := by
  rw [perform_update]
  cases changed : change session.graph with
  | error _ => exact placed
  | ok graph => exact step graph changed

theorem placed_declareInput (placed : session.graph.Placed) (symbol : Symbol)
    (categories : CategorySet) (initial : Option (Tensor κ)) :
    ((declareInput symbol categories initial).perform session).2.graph.Placed := by
  have added : ((update (addInput symbol categories)).perform session).2.graph.Placed :=
    placed_update placed fun _ added => placed.addInput added
  unfold declareInput
  rw [perform_bind]
  rcases outcome : (update (addInput symbol categories)).perform session with ⟨_ | _, later⟩
  · rwa [outcome] at added
  · rw [outcome] at added
    cases initial with
    | none => exact added
    | some value => exact placed_update added fun _ bound => added.bindInput bound

theorem placed_register (placed : session.graph.Placed) (lawful : session.graph.Lawful limit)
    (name : String) (symbol : Symbol) {value : Tensor κ} (within : value.Placed)
    (categories : CategorySet) :
    ((Graph.register name symbol value categories).perform session).2.graph.Placed := by
  have added : ((update (addEquation name symbol value categories)).perform session).2.graph.Placed :=
    placed_update placed fun _ added => placed.addEquation lawful within added
  rw [Graph.register, perform_bind]
  rcases outcome : (update (addEquation name symbol value categories)).perform session with
    ⟨_ | _, later⟩
  · rwa [outcome] at added
  · rwa [outcome] at added

theorem placed_define (placed : session.graph.Placed) (lawful : session.graph.Lawful limit)
    (name : String) {value : Tensor κ} (within : value.Placed) (categories : CategorySet) :
    ((Graph.define name value categories).perform session).2.graph.Placed := by
  rw [Graph.define, perform_bind, perform_freshSymbol]
  have later : ({ session with supply := (session.supply.fresh name value.shape).2 } :
      Session κ).graph.Placed := placed
  exact placed_register later lawful name _ within categories

theorem Fit.placed_build (fit : Fit simplifier session) (tame : simplifier.Tame)
    (placed : session.graph.Placed) : (Graph.build.perform session).2.graph.Placed := by
  have relinked : session.graph.relink.Placed := placed.of_node? fun _ => rfl
  have isTame : session.graph.simplifier.Tame := fit.simplifier_eq ▸ tame
  rcases build_outcome fit.valid.toLawful isTame.toModest with
    ⟨error, fails | fails⟩ | ⟨orderly, levels, report, _, succeeds⟩
  · rwa [fails]
  · rwa [fails]
  · rw [succeeds]
    exact ((optimized_improved orderly.relink isTame.toModest).placed isTame relinked).of_node?
      fun _ => rfl

theorem placed_reduce (placed : session.graph.Placed) (kept : CategorySet) :
    ((keepOnly kept).perform session).2.graph.Placed := by
  rw [keepOnly, perform_bind, perform_getGraph]
  simp only
  split
  · rename_i reduction graph reduced
    rw [perform_bind, perform_setGraph]
    exact placed.reduce reduced
  · exact placed

theorem Fit.placed_apply (fit : Fit simplifier session) (tame : simplifier.Tame)
    (placed : session.graph.Placed) (command : Command κ)
    (admissible : command.Admissible session.supply) : (command.apply session).graph.Placed := by
  unfold Command.apply
  cases command with
  | issue => exact placed
  | declareInput symbol categories initial => exact placed_declareInput placed symbol categories initial
  | register name symbol value categories =>
      rw [Command.action, perform_ignore]
      exact placed_register placed fit.valid.toLawful name symbol admissible.2.placed categories
  | define name value categories =>
      rw [Command.action, perform_ignore]
      exact placed_define placed fit.valid.toLawful name (Tensor.Regular.placed admissible) categories
  | bind symbol value => exact placed_update placed fun _ bound => placed.bindInput bound
  | query symbol =>
      rw [Command.action, perform_ignore]
      exact (valueOf_queried fit.valid symbol).placed placed
  | queryNumbers symbol =>
      rw [Command.action, perform_ignore]
      exact (numbersOf_queried fit.valid symbol).placed placed
  | build =>
      rw [Command.action, perform_ignore]
      exact fit.placed_build tame placed
  | reduce kept =>
      rw [Command.action, perform_ignore]
      exact placed_reduce placed kept

theorem Reachable.placed (reachable : Reachable simplifier session) (tame : simplifier.Tame) :
    session.graph.Placed := by
  induction reachable with
  | start supply made =>
      obtain rfl := new_ok made
      intro index node live
      cases live
  | step command before admissible ih => exact (before.fit tame).placed_apply tame ih command admissible

/-- One session comes from another one by commands that are allowed in the sessions in which they
are given. -/
inductive Leads (allowed : Session κ → Command κ → Prop) (first : Session κ) : Session κ → Prop where
  | start : Leads allowed first first
  | step {session : Session κ} (command : Command κ) (before : Leads allowed first session)
      (admissible : command.Admissible session.supply) (isAllowed : allowed session command) :
      Leads allowed first (command.apply session)

theorem Leads.reachable {allowed : Session κ → Command κ → Prop} (leads : Leads allowed before after)
    (reachable : Reachable simplifier before) : Reachable simplifier after := by
  induction leads with
  | start => exact reachable
  | step command _ admissible _ ih => exact Reachable.step command ih admissible

theorem Leads.trans {allowed : Session κ → Command κ → Prop} {middle : Session κ}
    (first : Leads allowed before middle) (rest : Leads allowed middle after) :
    Leads allowed before after := by
  induction rest with
  | start => exact first
  | step command _ admissible isAllowed ih => exact ih.step command admissible isAllowed

theorem Leads.single {allowed : Session κ → Command κ → Prop} (command : Command κ)
    (admissible : command.Admissible session.supply) (isAllowed : allowed session command) :
    Leads allowed session (command.apply session) :=
  .step command .start admissible isAllowed

theorem Leads.mono {allowed more : Session κ → Command κ → Prop} (leads : Leads allowed before after)
    (le : ∀ session command, allowed session command → more session command) :
    Leads more before after := by
  induction leads with
  | start => exact .start
  | step command _ admissible isAllowed ih => exact ih.step command admissible (le _ _ isAllowed)

theorem Change.supply_le (change : Change before after) : before.supply.next ≤ after.supply.next := by
  cases change with
  | issue => exact Nat.le_succ _
  | input | bind | define | relink => exact le_rfl
  | evaluate evaluates =>
      obtain ⟨_⟩ := evaluates
      exact le_rfl

theorem Fit.supply_le (fit : Fit simplifier session) (modest : simplifier.Modest) {command : Command κ}
    (admissible : command.Admissible session.supply) :
    session.supply.next ≤ (command.apply session).supply.next := by
  have outcome := fit.outcome modest command admissible.issued
  generalize command.apply session = later at outcome
  cases outcome with
  | changed changes =>
      induction changes with
      | refl => exact le_rfl
      | tail _ last ih => exact ih.trans last.supply_le
  | built orderly _ =>
      exact (optimized_improved orderly.relink (fit.simplifier_eq ▸ modest)).le
  | reduced => exact le_rfl

theorem Leads.supply_le {allowed : Session κ → Command κ → Prop} (leads : Leads allowed before after)
    (tame : simplifier.Tame) (reachable : Reachable simplifier before) :
    before.supply.next ≤ after.supply.next := by
  induction leads with
  | start => exact le_rfl
  | step command earlier admissible _ ih =>
      exact ih.trans (((earlier.reachable reachable).fit tame).supply_le tame.toModest admissible)

theorem new_standard : new .standard (Simplifier.keep : Simplifier κ) =
    .ok (ofSettings .standard Simplifier.keep) := rfl

namespace Chained

def x : Symbol := ⟨1, "x", .scalar, .real⟩

def m : Symbol := ⟨2, "m", .scalar, .real⟩

def y : Symbol := ⟨3, "y", .scalar, .real⟩

/-- The input `x` is bound to one, `m` renames `x`, and `y` has the value of `m`. -/
noncomputable def registered : Session RealNumber :=
  (Command.register "y" y (.ofSymbol m) (.only .state)).apply
    ((Command.register "m" m (.ofSymbol x) (.only .variable)).apply
      ((Command.declareInput x (.only .parameter) (some (.ofExpr .one))).apply
        ⟨ofSettings .standard Simplifier.keep, ⟨4⟩⟩))

noncomputable def built : Session RealNumber := Command.build.apply registered

theorem reachable : Reachable Simplifier.keep registered := by
  refine Reachable.step _ (Reachable.step _ (Reachable.step _
    (Reachable.start ⟨4⟩ new_standard) ?_) ?_) ?_
  · exact (by decide : 1 < 4)
  · exact ⟨(by decide : 2 < 4), Tensor.regular_ofSymbol (by decide : 1 < 4)⟩
  · exact ⟨(by decide : 3 < 4), Tensor.regular_ofSymbol (by decide : 2 < 4)⟩

theorem reachable_built : Reachable Simplifier.keep built := Reachable.step .build reachable trivial

end Chained

namespace Outlying

def v : Symbol := ⟨1, "v", .vector 2, .real⟩

def m : Symbol := ⟨2, "m", .vector 2, .real⟩

def s : Symbol := ⟨3, "s", .scalar, .real⟩

noncomputable def sine : Tensor RealNumber := .ofExpr (.call .sin (.atom (.entry m 5 0)))

/-- The vector `m` renames the input `v`, and `s` reads an entry beyond the last one of `m`. -/
noncomputable def registered : Session RealNumber :=
  (Command.register "s" s sine (.only .sensor)).apply
    ((Command.register "m" m (.ofSymbol v) (.only .variable)).apply
      ((Command.declareInput v (.only .parameter) none).apply
        ⟨ofSettings .standard Simplifier.keep, ⟨4⟩⟩))

/-- After a build, which removes `m` but leaves the entry. -/
noncomputable def built : Session RealNumber := Command.build.apply registered

theorem issued_sine : sine.Issued 4 := by
  refine ⟨rfl, fun atom member => ?_⟩
  obtain ⟨entry, among, occurs⟩ := Tensor.mem_atoms.mp member
  rw [List.mem_singleton.mp among] at occurs
  simp only [Expr.occurrences, List.mem_singleton] at occurs
  subst occurs
  exact (by decide : 2 < 4)

theorem attainable : Attainable Simplifier.keep registered := by
  refine Attainable.step _ (Attainable.step _ (Attainable.step _
    (Attainable.start ⟨4⟩ new_standard) ?_) ?_) ?_
  · exact (by decide : 1 < 4)
  · exact ⟨(by decide : 2 < 4), Tensor.issued_ofSymbol (by decide : 1 < 4)⟩
  · exact ⟨(by decide : 3 < 4), issued_sine⟩

theorem attainable_built : Attainable Simplifier.keep built := .step .build attainable trivial

end Outlying

end Mechanism.Graph
