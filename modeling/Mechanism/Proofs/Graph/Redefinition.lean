import Mechanism.Proofs.Graph.Aliases

/-!
A symbol is bound once. Its registration outlives all builds, so that registering the same
definition again changes nothing and registering another one is an error. Only symbols that a build
has removed as renamings of other symbols can be registered anew.

What an accepted registration says of the values of its symbol, whatever has become of the symbols
that it reads: where removed symbols have the values of those that they stand for, the equation
has the value that was handed in.
-/

namespace Mechanism.Graph

section

open Mechanism.Graph.Action

variable {κ : Type} [Scalar κ] {graph after : Graph κ} {simplifier : Simplifier κ}
  {session first later : Session κ} {name : String} {symbol : Symbol} {value : Tensor κ}
  {categories : CategorySet}

theorem shape_resolveAliases (graph : Graph κ) (value : Tensor κ) :
    (graph.resolveAliases value).shape = value.shape := by
  unfold resolveAliases
  split <;> rfl

/-- Why a definition is not accepted for a symbol that is live already. -/
def refusal (graph : Graph κ) (node : Node κ) (name : String) (symbol : Symbol) (value : Tensor κ)
    (categories : CategorySet) : GraphError κ :=
  if categories.isEmpty then .emptyCategory name
  else if value.shape ≠ symbol.shape then .shapeMismatch symbol.name symbol.shape value.shape
  else .duplicateSymbol symbol.name (.definition node.equation.name node.value.entries)
    (.definition name (graph.resolveAliases value).entries)

theorem addEquation_live {node : Node κ} (found : graph.nodeOf? symbol = some node)
    (noInput : graph.isInput symbol = false) :
    addEquation name symbol value categories graph =
      if categories.isEmpty = false ∧ value.shape = symbol.shape ∧
          (node.registered = value ∨ node.value = graph.resolveAliases value) ∧
            node.equation.categories = categories then .ok graph
      else .error (graph.refusal node name symbol value categories) := by
  unfold addEquation refusal
  have live : (graph.liveIndex? symbol >>= graph.node?) = some node := found
  simp only [live, noInput, shape_resolveAliases]
  by_cases empty : categories.isEmpty = true
  · simp [empty]
  · by_cases shape : value.shape = symbol.shape
    · by_cases same : (node.registered = value ∨ node.value = graph.resolveAliases value) ∧
        node.equation.categories = categories
      · simp [empty, shape, same]
      · simp [empty, shape, same]
    · simp [empty, shape]

theorem perform_register (session : Session κ) (name : String) (symbol : Symbol) (value : Tensor κ)
    (categories : CategorySet) :
    (register name symbol value categories).perform session =
      match addEquation name symbol value categories session.graph with
      | .ok graph => (.ok symbol, { session with graph := graph })
      | .error error => (.error error, session) := by
  rw [register, perform_bind, perform_update]
  cases addEquation name symbol value categories session.graph <;> rfl

/-- What a registration that has been accepted says of the symbol, as long as that is live. -/
structure Registered (graph : Graph κ) (name : String) (symbol : Symbol) (value : Tensor κ)
    (categories : CategorySet) (node : Node κ) : Prop where
  found : graph.nodeOf? symbol = some node
  name_eq : node.equation.name = name
  registered : node.registered = value
  categories_eq : node.equation.categories = categories

theorem registered_addEquation {limit : Nat} (lawful : graph.Lawful limit)
    (undefined : graph.isDefined symbol = false)
    (added : addEquation name symbol value categories graph = .ok after) :
    categories.isEmpty = false ∧ value.shape = symbol.shape ∧
      ∃ node, after.Registered name symbol value categories node := by
  obtain ⟨nonempty, shape, _, _⟩ := addEquation_new undefined added
  rw [shape_resolveAliases] at shape
  exact ⟨nonempty, shape, _, nodeOf?_addEquation lawful undefined added, rfl, rfl, rfl⟩

theorem addEquation_of_register
    (accepted : (register name symbol value categories).perform session = (.ok symbol, first)) :
    addEquation name symbol value categories session.graph = .ok first.graph ∧
      first = { session with graph := first.graph } := by
  rw [perform_register] at accepted
  cases added : addEquation name symbol value categories session.graph with
  | error reason =>
      rw [added] at accepted
      cases accepted
  | ok after =>
      rw [added] at accepted
      cases accepted
      exact ⟨rfl, rfl⟩

theorem Reachable.register (reachable : Reachable simplifier session)
    (admissible : (Command.register name symbol value categories).Admissible session.supply)
    (accepted : (Graph.register name symbol value categories).perform session =
      (.ok symbol, first)) : Reachable simplifier first := by
  have step := Reachable.step _ reachable admissible
  rwa [Command.apply, Command.action, perform_ignore, accepted] at step

theorem Change.nodeOf? {before after : Session κ} (change : Change before after)
    (fit : Fit simplifier before) {symbol : Symbol} {node : Node κ}
    (found : before.graph.nodeOf? symbol = some node) :
    after.graph.nodeOf? symbol = some node := by
  cases change with
  | issue | relink => exact found
  | input _ added => rcases addInput_ok added with rfl | ⟨_, rfl⟩ <;> exact found
  | bind bound =>
      obtain ⟨_, rfl⟩ := bindInput_ok bound
      exact found
  | evaluate evaluates =>
      cases evaluates with
      | refresh => exact found
  | define _ _ added =>
      rcases addEquation_ok added with ⟨_, rfl⟩ | ⟨_, _, _, undefined, rfl⟩
      · exact found
      · refine (fit.valid.toLawful.nodeOf?_appendNode rfl symbol).trans ((if_neg ?_).trans found)
        intro same
        have defined := isDefined_iff.mpr ⟨node, found⟩
        rw [← same] at defined
        exact Bool.false_ne_true (undefined.symm.trans defined)

theorem rebuilt_stems (fit : Fit simplifier session) (modest : simplifier.Modest)
    (orderly : session.graph.Orderly session.supply.next) (levels : List (List Nat)) :
    Stems session.supply.next session.graph (session.rebuilt levels).graph := by
  obtain ⟨origin, kept⟩ := optimized_stems orderly.relink (fit.simplifier_eq ▸ modest)
  exact ⟨origin, kept⟩

theorem Registered.of_origin {node other : Node κ}
    (registered : graph.Registered name symbol value categories node)
    (found : after.nodeOf? symbol = some other) (same : node.SameOrigin other) :
    after.Registered name symbol value categories other :=
  ⟨found, same.name.trans registered.name_eq, same.registered.trans registered.registered,
    same.categories.trans registered.categories_eq⟩

/-- Nothing is dropped for want of need, and an intermediate definition is not removed. -/
def Sparing (symbol : Symbol) (categories : CategorySet) (session : Session κ)
    (command : Command κ) : Prop :=
  (∀ kept, command ≠ .reduce kept) ∧ (categories.isOnly .variable = true →
    (command.apply session).graph.isDefined symbol = true)

theorem Registered.apply {node : Node κ}
    (registered : session.graph.Registered name symbol value categories node)
    (fit : Fit simplifier session) (modest : simplifier.Modest) {command : Command κ}
    (issued : command.Issued session.supply)
    (sparing : Sparing symbol categories session command) :
    ∃ other, (command.apply session).graph.Registered name symbol value categories other := by
  obtain ⟨unreduced, remains⟩ := sparing
  have outcome := fit.outcome modest command issued
  generalize command.apply session = later at outcome remains
  cases outcome with
  | changed changes =>
      refine ⟨node, ⟨?_, registered.name_eq, registered.registered, registered.categories_eq⟩⟩
      exact changes.invariant fit (fun change fit found => change.nodeOf? fit found) registered.found
  | @built levels orderly _ =>
      have old := fit.valid.toLawful.defined_issued (isDefined_iff.mpr ⟨node, registered.found⟩)
      have stems := rebuilt_stems fit modest orderly levels
      have live : ∃ other, (session.rebuilt levels).graph.nodeOf? symbol = some other := by
        rcases stems.kept old registered.found with intermediate | kept
        · exact isDefined_iff.mp (remains (registered.categories_eq ▸ intermediate))
        · exact kept
      obtain ⟨other, found⟩ := live
      obtain ⟨again, before, same⟩ := stems.origin old found
      rw [registered.found, Option.some.injEq] at before
      subst before
      exact ⟨other, registered.of_origin found same⟩
  | reduced _ => exact absurd rfl (unreduced _)

theorem Registered.leads {node : Node κ}
    (registered : first.graph.Registered name symbol value categories node)
    (reachable : Reachable simplifier first) (tame : simplifier.Tame)
    (run : Leads (Sparing symbol categories) first later) :
    ∃ other, later.graph.Registered name symbol value categories other := by
  induction run with
  | start => exact ⟨node, registered⟩
  | step command before admissible sparing ih =>
      obtain ⟨other, still⟩ := ih
      exact still.apply ((before.reachable reachable).fit tame) tame.toModest admissible.issued sparing

/-- Once a definition has been accepted for a symbol, the symbol keeps it through all builds, unless
these remove it as a renaming of another one: to register it again changes nothing, whatever the
passes have made of it, and any other definition is refused and changes nothing either. -/
theorem definition_kept (tame : simplifier.Tame) (reachable : Reachable simplifier session)
    (admissible : (Command.register name symbol value categories).Admissible session.supply)
    (undefined : session.graph.isDefined symbol = false)
    (accepted : (register name symbol value categories).perform session = (.ok symbol, first))
    (run : Leads (Sparing symbol categories) first later) :
    (∀ again, (register again symbol value categories).perform later = (.ok symbol, later)) ∧
    ∃ node, later.graph.Registered name symbol value categories node ∧
      ∀ again other others, others ≠ categories ∨
          other ≠ value ∧ later.graph.resolveAliases other ≠ node.value →
        (register again symbol other others).perform later =
          (.error (if others.isEmpty then .emptyCategory again
            else if other.shape ≠ symbol.shape then
              .shapeMismatch symbol.name symbol.shape other.shape
            else .duplicateSymbol symbol.name (.definition name node.value.entries)
              (.definition again (later.graph.resolveAliases other).entries)), later) := by
  have start := reachable.register admissible accepted
  obtain ⟨added, _⟩ := addEquation_of_register accepted
  obtain ⟨nonempty, shape, _, registered⟩ :=
    registered_addEquation (reachable.fit tame).valid.toLawful undefined added
  obtain ⟨node, still⟩ := registered.leads start tame run
  have noInput := ((run.reachable start).fit tame).valid.toLawful.noInput still.found
  refine ⟨?_, node, still, ?_⟩
  · intro again
    rw [perform_register, addEquation_live still.found noInput,
      if_pos ⟨nonempty, shape, Or.inl still.registered, still.categories_eq⟩]
  · intro again other others differs
    rw [perform_register, addEquation_live still.found noInput, if_neg]
    · rw [refusal, still.name_eq]
    · rintro ⟨_, _, same, equal⟩
      rcases differs with different | ⟨different, unlike⟩
      · exact different (equal.symm.trans still.categories_eq)
      · rcases same with same | same
        · exact different (same.symm.trans still.registered)
        · exact unlike same.symm

theorem definition_kept_chained : ∃ first later,
    (register "m" Chained.m (.ofSymbol Chained.x) (.only .sensor)).perform Chained.built =
        (.ok Chained.m, first) ∧
      later = Command.build.apply first ∧ later.graph.built = true ∧
      (register "m" Chained.m (.ofSymbol Chained.x) (.only .sensor)).perform later =
        (.ok Chained.m, later) ∧
      ∃ reason, (register "m" Chained.m (.ofSymbol Chained.x) (.only .state)).perform later =
        (.error reason, later) := by
  have succeeds : ((register "m" Chained.m (.ofSymbol Chained.x) (.only .sensor)).perform
      Chained.built).1.toOption.isSome = true := by with_unfolding_all decide
  have rebuilt : (Command.build.apply ((register "m" Chained.m (.ofSymbol Chained.x)
      (.only .sensor)).perform Chained.built).2).graph.built = true := by with_unfolding_all decide
  cases added : addEquation "m" Chained.m (.ofSymbol Chained.x) (.only .sensor)
      Chained.built.graph with
  | error reason =>
      rw [perform_register, added] at succeeds
      cases succeeds
  | ok graph =>
      have accepted : (register "m" Chained.m (.ofSymbol Chained.x) (.only .sensor)).perform
          Chained.built = (.ok Chained.m, { Chained.built with graph := graph }) := by
        rw [perform_register, added]
      rw [accepted] at rebuilt
      have run : Leads (Sparing Chained.m (.only .sensor)) { Chained.built with graph := graph }
          (Command.build.apply { Chained.built with graph := graph }) :=
        Leads.step .build Leads.start trivial ⟨nofun, fun only => absurd only (by decide)⟩
      obtain ⟨again, node, _, refused⟩ := definition_kept Simplifier.keep_tame
        Chained.reachable_built
        ⟨by with_unfolding_all decide, Tensor.regular_ofSymbol (by with_unfolding_all decide)⟩
        (by with_unfolding_all decide) accepted run
      exact ⟨_, _, accepted, rfl, rebuilt, again "m", _,
        refused "m" (.ofSymbol Chained.x) (.only .state) (Or.inl (by decide))⟩

/-- A renaming that a build has removed is not kept: to register it again enters it anew, and the
graph is not built any more. Another definition is accepted as well. -/
theorem renaming_registered_anew :
    Chained.registered.graph.isDefined Chained.m = true ∧ Chained.built.graph.built = true ∧
      ((Command.register "m" Chained.m (.ofSymbol Chained.x) (.only .variable)).apply
        Chained.built).graph.built = false ∧
      ((register "m" Chained.m (.ofSymbol Chained.y) (.only .sensor)).perform
        Chained.built).1.toOption = some Chained.m := by
  with_unfolding_all decide

section

variable {limit more : Nat} {before : Graph κ}

def Recorded (limit : Nat) (graph : Graph κ) : Prop :=
  ∀ ⦃index : Nat⦄ ⦃node : Node κ⦄, graph.node? index = some node → node.registered.Issued limit

theorem Recorded.mono (recorded : graph.Recorded limit) (le : limit ≤ more) :
    graph.Recorded more :=
  fun _ _ live => (recorded live).mono le

theorem Recorded.of_nodeOf? (recorded : graph.Recorded limit) {symbol : Symbol} {node : Node κ}
    (found : graph.nodeOf? symbol = some node) : node.registered.Issued limit := by
  obtain ⟨_, _, live⟩ := nodeOf?_eq_some.mp found
  exact recorded live

theorem Recorded.appendNode (recorded : graph.Recorded limit) {node : Node κ}
    (live : node.removed = false) (issued : node.registered.Issued limit) :
    (graph.appendNode node).Recorded limit := by
  intro index other found
  rw [node?_appendNode graph live] at found
  split at found
  · cases found
    exact issued
  · exact recorded found

theorem Recorded.addEquation (recorded : graph.Recorded limit) {name : String} {symbol : Symbol}
    {value : Tensor κ} {categories : CategorySet} (issued : value.Issued limit)
    (added : Graph.addEquation name symbol value categories graph = .ok after) :
    after.Recorded limit := by
  rcases addEquation_ok added with ⟨_, rfl⟩ | ⟨_, _, _, _, rfl⟩
  · exact recorded
  · exact recorded.appendNode rfl issued

theorem Recorded.removeNode (recorded : graph.Recorded limit) (index : Nat) :
    (graph.removeNode index).Recorded limit := by
  intro other node found
  rw [node?_removeNode] at found
  split at found
  · cases found
  · exact recorded found

theorem Edit.recorded (edit : Edit limit more before after) (recorded : before.Recorded more) :
    after.Recorded more := by
  cases edit with
  | number | relink => exact recorded
  | revalue live _ _ =>
      intro other node found
      rw [node?_setValue] at found
      split at found
      · obtain ⟨old, former, rfl⟩ := Option.map_eq_some_iff.mp found
        exact (recorded former : _)
      · exact recorded found
  | name _ regular _ _ _ => exact recorded.appendNode rfl regular.value
  | inline _ _ => exact recorded.removeNode _
  | rename _ _ _ => exact recorded.removeNode _

theorem Change.recorded {before after : Session κ} (change : Change before after)
    (recorded : before.graph.Recorded before.supply.next) :
    after.graph.Recorded after.supply.next := by
  cases change with
  | issue => exact recorded.mono (Nat.le_succ _)
  | relink => exact recorded
  | input _ added => rcases addInput_ok added with rfl | ⟨_, rfl⟩ <;> exact recorded
  | bind bound =>
      obtain ⟨_, rfl⟩ := bindInput_ok bound
      exact recorded
  | define _ issued added => exact recorded.addEquation issued added
  | evaluate evaluates =>
      cases evaluates with
      | refresh => exact recorded

theorem Edits.recorded (edits : Edits limit more before after) (lawful : before.Lawful more)
    (recorded : before.Recorded more) : after.Recorded more :=
  edits.invariant lawful (fun edit _ recorded => edit.recorded recorded) recorded

theorem Attainable.recorded (modest : simplifier.Modest)
    (attainable : Attainable simplifier session) :
    session.graph.Recorded session.supply.next := by
  refine attainable.invariant (fun session => session.graph.Recorded session.supply.next) modest ?_
    (fun change _ recorded => change.recorded recorded) ?_ ?_
  · intro _ _ _ _ found
    cases found
  · intro session levels fit recorded orderly _
    have improved := optimized_improved orderly.relink (fit.simplifier_eq ▸ modest)
    have edits := optimized_edits orderly.relink (fit.simplifier_eq ▸ modest)
    exact edits.recorded (orderly.relink.toLawful.mono improved.le)
      (Recorded.mono recorded improved.le)
  · intro session kept reduction graph _ recorded reduced
    obtain ⟨_, indices, _, _, _, rfl⟩ := reduce_eq_ok reduced
    intro index node found
    have live : (indices.foldl dropNode session.graph).node? index = some node := found
    rw [(foldl_dropNode_dropped indices session.graph).node?] at live
    split at live
    · cases live
    · exact recorded live

end

end

variable {κ : Type} [Scalar κ] {graph before after : Graph κ} {limit : Nat} {name : String}
  {symbol : Symbol} {value : Tensor κ} {categories : CategorySet}

/-- A definition is accepted for a symbol that is live already only if it is the one that was
registered or comes to the present value. -/
theorem same_of_addEquation {node : Node κ} (found : graph.nodeOf? symbol = some node)
    (noInput : graph.isInput symbol = false)
    (added : addEquation name symbol value categories graph = .ok after) :
    (node.registered = value ∨ node.value = graph.resolveAliases value) ∧ after = graph := by
  rw [addEquation_live found noInput] at added
  split at added
  · rename_i accepted
    cases added
    exact ⟨accepted.2.2.1, rfl⟩
  · cases added

theorem find?_aliases_addEquation {read : Symbol} (differs : symbol ≠ read)
    (added : addEquation name symbol value categories graph = .ok after) :
    after.aliases.find? read = graph.aliases.find? read := by
  rcases addEquation_ok added with ⟨_, rfl⟩ | ⟨_, _, _, _, rfl⟩
  · rfl
  · exact (Table.find?_erase graph.aliases symbol read).trans (if_neg differs)

theorem nodeOf?_addEquation_of_ne (lawful : graph.Lawful limit) {other : Symbol}
    (differs : symbol ≠ other)
    (added : addEquation name symbol value categories graph = .ok after) :
    after.nodeOf? other = graph.nodeOf? other := by
  rcases addEquation_ok added with ⟨_, rfl⟩ | ⟨_, _, _, _, rfl⟩
  · rfl
  · exact (lawful.nodeOf?_appendNode rfl other).trans (if_neg differs)

theorem nodeOf?_addEquation_kept (lawful : graph.Lawful limit) {other : Symbol} {node : Node κ}
    (found : graph.nodeOf? other = some node)
    (added : addEquation name symbol value categories graph = .ok after) :
    after.nodeOf? other = some node := by
  by_cases same : symbol = other
  · subst same
    obtain ⟨_, rfl⟩ := same_of_addEquation found (lawful.noInput found) added
    exact found
  · rw [nodeOf?_addEquation_of_ne lawful same added, found]

variable [Exact κ]

/-- If the symbol has been removed, it has no values but those of what it stands for. -/
def Respects (graph : Graph κ) (environment : Environment) (read : Symbol) : Prop :=
  ∀ target, graph.aliases.find? read = some target → ∀ index number,
    environment read index = some number → target.MeansAt environment index number

def Carries (graph : Graph κ) (symbol : Symbol) (value : Tensor κ) : Prop :=
  ∃ node, graph.nodeOf? symbol = some node ∧
    ∀ environment, (∀ read ∈ value.symbols, graph.Respects environment read) →
      ∀ index number, value.MeansAt environment index number →
        node.value.MeansAt environment index number

theorem Lawful.meansAt_respected (lawful : graph.Lawful limit) (regular : value.Regular limit)
    {environment : Environment} (respects : ∀ read ∈ value.symbols, graph.Respects environment read)
    {index : Nat} {number : ℝ} (means : value.MeansAt environment index number) :
    (graph.resolveAliases value).MeansAt environment index number := by
  refine lawful.meansAt_resolveAliases regular means (fun _ _ _ _ known => known) ?_
  intro atom member other found _ place number known
  have target := respects atom.symbol (Tensor.mem_symbols.mpr ⟨atom, member, rfl⟩) _ found
    atom.flatIndex number known
  rw [Tensor.meansAt_ofSymbol] at target
  rw [Environment.read, place]
  exact target.2

/-- A registration that has been accepted is carried, if no other one of the same words was
accepted before. -/
theorem Lawful.carries (lawful : graph.Lawful limit) (regular : value.Regular limit)
    (apart : symbol ∉ value.symbols)
    (new : ∀ node, graph.nodeOf? symbol = some node → node.registered ≠ value)
    (added : addEquation name symbol value categories graph = .ok after) :
    after.Carries symbol value := by
  cases found : graph.nodeOf? symbol with
  | some node =>
      obtain ⟨same | same, rfl⟩ := same_of_addEquation found (lawful.noInput found) added
      · exact absurd same (new node found)
      · refine ⟨node, found, fun environment respects index number means => ?_⟩
        rw [same]
        exact lawful.meansAt_respected regular respects means
  | none =>
      have undefined : graph.isDefined symbol = false := by rw [isDefined_eq, found]; rfl
      refine ⟨_, nodeOf?_addEquation lawful undefined added, ?_⟩
      intro environment respects index number means
      refine lawful.meansAt_respected regular (fun read member target known => ?_) means
      refine respects read member target ?_
      rw [find?_aliases_addEquation (fun (same : symbol = read) => apart (same ▸ member)) added,
        known]

theorem Carries.kept (carries : before.Carries symbol value)
    (nodes : ∀ node, before.nodeOf? symbol = some node → after.nodeOf? symbol = some node)
    (aliases : ∀ read ∈ value.symbols, after.aliases.find? read = before.aliases.find? read) :
    after.Carries symbol value := by
  obtain ⟨node, found, means⟩ := carries
  refine ⟨node, nodes node found, fun environment respects => means environment ?_⟩
  intro read member target known
  exact respects read member target ((aliases read member).trans known)

end Mechanism.Graph
