import Mechanism.Proofs.Graph.Buildability
import Mechanism.Proofs.Graph.Distribution

/-!
The folding of equal definitions. Afterwards no two definitions that take an operation are equal.

Work that is done once after a build. A repeated subexpression gets one symbol, is written out once
and is referred to everywhere else. The pass looks at the values as it finds them: an equality that
comes about later is not looked for again.
-/

namespace Mechanism

section

variable {κ : Type} [Scalar κ]

@[simp] theorem Tensor.operations_ofSymbol (symbol : Symbol) :
    (Tensor.ofSymbol symbol : Tensor κ).operations = 0 := by
  have each : ∀ atom : Atom, (Expr.atom atom : Expr κ).operations = 0 := by
    intro atom
    rw [Expr.operations_eq]
    rfl
  simp [Tensor.operations, Tensor.ofSymbol, total_eq, Function.comp_def, each]

namespace Graph

/-- What has been visited and takes an operation has been seen, and no two of it are equal. -/
structure Distinct (start : Graph κ) (visited : Nat → Prop) (state : Folding κ) : Prop where
  live : ∀ index, (state.graph.node? index).isSome → (start.node? index).isSome
  seen : ∀ {index : Nat} {node : Node κ}, visited index → state.graph.node? index = some node →
    node.value.operations ≠ 0 → ∃ symbol, (node.value, symbol) ∈ state.seen
  apart : ∀ {first second : Nat} {node other : Node κ}, visited first → visited second →
    state.graph.node? first = some node → state.graph.node? second = some other →
      node.value = other.value → node.value.operations ≠ 0 → first = second

namespace Distinct

variable {start : Graph κ} {visited : Nat → Prop} {state : Folding κ} {index : Nat}
  (distinct : Distinct start visited state)

include distinct

theorem skip (idle : ∀ node, state.graph.node? index = some node → node.value.operations = 0) :
    Distinct start (fun other => visited other ∨ other = index) state where
  live := distinct.live
  seen := by
    rintro other node (before | rfl) found operations
    · exact distinct.seen before found operations
    · exact absurd (idle node found) operations
  apart := by
    rintro first second node other (before | rfl) (again | rfl) found foundAgain same operations
    · exact distinct.apart before again found foundAgain same operations
    · exact absurd (same ▸ idle other foundAgain) operations
    · exact absurd (idle node found) operations
    · rfl

theorem note {node : Node κ} (found : state.graph.node? index = some node)
    (new : ∀ entry ∈ state.seen, entry.1 ≠ node.value) :
    Distinct start (fun other => visited other ∨ other = index)
      { state with seen := state.seen ++ [(node.value, node.symbol)] } where
  live := distinct.live
  seen := by
    rintro other third (before | rfl) live operations
    · obtain ⟨symbol, member⟩ := distinct.seen before live operations
      exact ⟨symbol, List.mem_append_left _ member⟩
    · rw [found, Option.some.injEq] at live
      subst live
      exact ⟨node.symbol, List.mem_append_right _ (List.mem_singleton_self _)⟩
  apart := by
    have unlike : ∀ {other : Nat} {third : Node κ}, visited other →
        state.graph.node? other = some third → third.value.operations ≠ 0 →
          third.value ≠ node.value := by
      intro other third before live operations
      obtain ⟨symbol, member⟩ := distinct.seen before live operations
      exact new _ member
    rintro first second one other (before | rfl) (again | rfl) live liveAgain same operations
    · exact distinct.apart before again live liveAgain same operations
    · rw [found, Option.some.injEq] at liveAgain
      subst liveAgain
      exact absurd same (unlike before live operations)
    · rw [found, Option.some.injEq] at live
      subst live
      exact absurd same.symm (unlike again liveAgain (same ▸ operations))
    · rfl

theorem replace {symbol : Symbol} :
    Distinct start (fun other => visited other ∨ other = index)
      { state with
        graph := state.graph.setValue index (.ofSymbol symbol), folded := state.folded + 1 } := by
  have nodes : ∀ {other : Nat} {node : Node κ},
      (state.graph.setValue index (.ofSymbol symbol)).node? other = some node →
        node.value.operations ≠ 0 → other ≠ index ∧ state.graph.node? other = some node := by
    intro other node found operations
    rw [node?_setValue] at found
    split at found
    · obtain ⟨former, _, rfl⟩ := Option.map_eq_some_iff.mp found
      exact absurd (Tensor.operations_ofSymbol symbol) operations
    · rename_i elsewhere
      exact ⟨fun same => elsewhere same.symm, found⟩
  refine ⟨?_, ?_, ?_⟩
  · intro other live
    apply distinct.live
    simp only [node?_setValue] at live
    split at live
    · simpa using live
    · exact live
  · rintro other node before found operations
    obtain ⟨elsewhere, live⟩ := nodes found operations
    exact distinct.seen (before.resolve_right elsewhere) live operations
  · rintro first second node other before again found foundAgain same operations
    obtain ⟨elsewhere, live⟩ := nodes found operations
    obtain ⟨elsewhereAgain, liveAgain⟩ := nodes foundAgain (same ▸ operations)
    exact distinct.apart (before.resolve_right elsewhere) (again.resolve_right elsewhereAgain)
      live liveAgain same operations

theorem step (index : Nat) :
    Distinct start (fun other => visited other ∨ other = index) (foldStep state index) := by
  unfold foldStep
  split
  · rename_i missing
    exact distinct.skip fun node found => by rw [missing] at found; cases found
  rename_i node found
  split
  · rename_i idle
    exact distinct.skip fun other live => by
      rw [found, Option.some.injEq] at live
      exact live ▸ idle
  split
  · exact distinct.replace
  · rename_i unseen
    apply distinct.note found
    intro entry member
    simpa using List.find?_eq_none.mp unseen entry member

theorem foldl (indices : List Nat) :
    Distinct start (fun other => visited other ∨ other ∈ indices)
      (indices.foldl foldStep state) := by
  induction indices generalizing visited state with
  | nil => simpa using distinct
  | cons head tail ih =>
      have rest := ih (distinct.step head)
      simpa [or_assoc] using rest

end Distinct

theorem foldDuplicates_apart (graph : Graph κ) :
    graph.foldDuplicates.1.equations.Pairwise fun first second =>
      first.value = second.value → first.value.operations = 0 := by
  have start : Distinct graph (fun _ => False) ⟨graph, [], 0⟩ := ⟨fun _ live => live, nofun, nofun⟩
  have distinct := start.foldl graph.liveIndices
  rw [equations, liveNodes_eq, List.pairwise_map, List.pairwise_filterMap]
  refine (nodup_liveIndices _).imp fun {first second} differ node found other foundAgain same => ?_
  have visited : ∀ {index : Nat} {node : Node κ}, graph.foldDuplicates.1.node? index = some node →
      False ∨ index ∈ graph.liveIndices := by
    intro index node found
    obtain ⟨former, live⟩ := Option.isSome_iff_exists.mp
      (distinct.live index (Option.isSome_iff_exists.mpr ⟨node, found⟩))
    exact Or.inr (mem_liveIndices.mpr ⟨former, live⟩)
  by_contra operations
  exact differ (distinct.apart (visited found) (visited foundAgain) found foundAgain same
    operations)

end Graph

end

namespace Graph

variable {κ : Type} [Scalar κ] {graph : Graph κ} {supply : SymbolSupply}

theorem isSome_inlineOne {state : Graph κ × Nat} {temporary index : Nat} (away : temporary ≠ index)
    (live : (state.1.node? index).isSome) :
    ((inlineOne state temporary).1.node? index).isSome := by
  unfold inlineOne
  split
  rename_i graph inlined
  split
  · exact live
  rename_i node _
  split
  · exact live
  simp only
  split
  · exact live
  rename_i reader _
  rw [node?_removeNode, if_neg away, node?_modifyNode]
  obtain ⟨other, found⟩ := Option.isSome_iff_exists.mp live
  split
  · obtain ⟨position, present⟩ := node?_eq_some.mp found
    simp [position, Node.withValue, present]
  · exact live

theorem usesOf_of_inlined {temporaries : List Nat} {index : Nat} {node : Node κ}
    (live : graph.node? index = some node)
    (gone : (graph.inlineSingleUse temporaries).1.node? index = none) :
    index ∈ temporaries ∧ graph.usesOf node.symbol = 1 := by
  have kept : ∀ (remaining : List Nat) (state : Graph κ × Nat), (state.1.node? index).isSome →
      index ∉ remaining → ((remaining.foldl inlineOne state).1.node? index).isSome := by
    intro remaining
    induction remaining with
    | nil => exact fun _ live _ => live
    | cons head tail ih =>
        intro state live absent
        rw [List.mem_cons, not_or] at absent
        exact ih _ (isSome_inlineOne (Ne.symm absent.1) live) absent.2
  rw [inlineSingleUse] at gone
  by_contra other
  have remains := kept (temporaries.filter fun index =>
    (graph.symbolAt? index).any fun symbol => graph.usesOf symbol = 1).reverse (graph, 0)
      (Option.isSome_iff_exists.mpr ⟨node, live⟩) (fun member => by
        obtain ⟨among, used⟩ := List.mem_filter.mp (List.mem_reverse.mp member)
        rw [symbolAt?_of_node? live, Option.any_some, decide_eq_true_eq] at used
        exact other ⟨among, used⟩)
  rw [gone] at remains
  cases remains

theorem usesOf_of_putBack {index : Nat} {node : Node κ}
    (live : (graph.nameRepeated supply).1.node? index = some node)
    (gone : (graph.shareRepeated supply).1.node? index = none) :
    index ∈ (graph.nameRepeated supply).2.1 ∧
      (graph.nameRepeated supply).1.usesOf node.symbol = 1 :=
  usesOf_of_inlined live gone

/-- The graph that is looked through for repeated subexpressions: its values are simplified, and
equal definitions are folded. -/
def condensed (graph : Graph κ) : Graph κ := graph.relink.simplifyValues.1.foldDuplicates.1

/-- Every part that is counted often enough has a symbol, and exactly one place where it is written
out. Any other part that takes work is written out less often than would get it a symbol, unless a
part around it is written out repeatedly; nothing is if two occurrences are enough. -/
structure SharesWork (least : Nat) (graph : Graph κ) (names : Expr κ → Option Symbol)
    (made : List (Expr κ)) : Prop where
  named : ∀ entry ∈ graph.entries, ∀ part ∈ entry.parts, (names part).isSome ↔
    isHoistable part = true ∧ least ≤ countOf graph.counts part
  once : ∀ part, IsWork part → (names part).isSome → (graph.writtenOut names made).count part = 1
  few : ∀ part, IsWork part → (∀ parent ∈ graph.writtenOut names made, part ∈ parent.children →
    (graph.writtenOut names made).count parent ≤ 1) →
      (graph.writtenOut names made).count part < least
  all : least = 2 → ∀ entry ∈ graph.entries, ∀ part ∈ entry.parts, IsWork part →
    (graph.writtenOut names made).count part = 1

theorem Distributed.sharesWork {names : Expr κ → Option Symbol} {made : List (Expr κ)}
    (distributed : Distributed graph names made) (atLeast : 2 ≤ graph.settings.minOccurrences) :
    SharesWork graph.settings.minOccurrences graph names made where
  named := by
    intro entry among part member
    rw [distributed.isSome_iff (distributed.part_mem among member), isMarked, Bool.and_eq_true,
      isRepeated, decide_eq_true_eq]
  once := fun part work named => distributed.count_named named work.2
  few := fun part work parents => distributed.count_lt atLeast work parents
  all := by
    intro two entry among part member work
    have most := distributed.count_le_one two work
    have least := List.count_pos_iff.mpr (distributed.part_mem among member)
    omega

theorem rebuilt_graph {session : Session κ} (optimize : session.graph.settings.optimize = true)
    (shareCommon : session.graph.condensed.settings.shareCommon = true) (levels : List (List Nat)) :
    (session.rebuilt levels).graph =
      ((session.graph.condensed.shareRepeated session.supply).1.eliminateAliases.1.relink).finished
        levels := by
  have wanted : (session.graph.condensed.shareWanted session.supply).1 =
      (session.graph.condensed.shareRepeated session.supply).1 := by
    rw [shareWanted, if_pos shareCommon]
  have same : session.graph.relink.settings.optimize = true := optimize
  rw [Session.rebuilt, (optimized_of_optimize same session.supply).1]
  exact congrArg (fun shared : Graph κ => (shared.eliminateAliases.1.relink).finished levels) wanted

/-- A build shares the work of the simplified values. The values are written with the symbols in the
places of the named parts, each new symbol is defined once, and one that is read once may be put
back into its reader. What follows only removes references. -/
theorem work_shared_once {simplifier : Simplifier κ} {session later : Session κ}
    {report : BuildReport} (tame : simplifier.Tame) (reachable : Reachable simplifier session)
    (optimize : session.graph.settings.optimize = true)
    (shareCommon : session.graph.settings.shareCommon = true)
    (atLeast : 2 ≤ session.graph.settings.minOccurrences)
    (built : build.perform session = (.ok report, later)) :
    ∃ names made levels,
      SharesWork session.graph.settings.minOccurrences session.graph.condensed names made ∧
      Rendered session.graph.condensed names made
        (session.graph.condensed.nameRepeated session.supply).2.1
        (session.graph.condensed.nameRepeated session.supply).1 ∧
      (∀ index node,
        (session.graph.condensed.nameRepeated session.supply).1.node? index = some node →
        (session.graph.condensed.shareRepeated session.supply).1.node? index = none →
          index ∈ (session.graph.condensed.nameRepeated session.supply).2.1 ∧
            (session.graph.condensed.nameRepeated session.supply).1.usesOf node.symbol = 1) ∧
      later.graph = ((session.graph.condensed.shareRepeated
        session.supply).1.eliminateAliases.1.relink).finished levels := by
  obtain ⟨valid, rfl⟩ := reachable.fit tame
  have orderly := (build_ok_iff valid.toLawful tame.toModest).mp ⟨report, later, built⟩
  obtain ⟨levels, _, _, succeeds⟩ := orderly.build_ok tame.toModest
  rw [succeeds] at built
  cases built
  have rewritten := folded_rewritten orderly.relink tame.toModest
  have settings : session.graph.condensed.settings = session.graph.settings := rewritten.settings
  have folded : session.graph.condensed.Orderly session.supply.next := rewritten.orderly
  obtain ⟨names, made, distributed, rendered⟩ :=
    nameRepeated_rendered folded (foldDuplicates_apart _)
  refine ⟨names, made, levels, ?_, rendered, ?_, ?_⟩
  · rw [← settings] at atLeast ⊢
    exact distributed.sharesWork atLeast
  · intro index node live gone
    exact usesOf_of_putBack live gone
  · exact rebuilt_graph optimize (settings ▸ shareCommon) levels

namespace Cosines

def y : Symbol := ⟨1, "y", .scalar, .real⟩

def m : Symbol := ⟨2, "m", .scalar, .real⟩

def p : Symbol := ⟨3, "p", .scalar, .real⟩

def q : Symbol := ⟨4, "q", .scalar, .real⟩

noncomputable def cosine (symbol : Symbol) : Expr RealNumber := .call .cos (.atom (.whole symbol))

/-- The input `y` is renamed `m`, and `p` and `q` use the cosines of `inner` and of `y`. -/
noncomputable def registered (inner : Symbol) : Session RealNumber :=
  (Command.register "q" q (.ofExpr (.call .exp (cosine y))) (.only .sensor)).apply
    ((Command.register "p" p (.ofExpr (.call .sin (cosine inner))) (.only .sensor)).apply
      ((Command.register "m" m (.ofSymbol y) (.only .variable)).apply
        ((Command.declareInput y (.only .parameter) none).apply
          ⟨ofSettings .standard Simplifier.keep, ⟨5⟩⟩)))

variable {inner : Symbol}

theorem regular_call (scalar : inner.shape = .scalar) (issued : inner.number < 5)
    (function : Elementary) : (Tensor.ofExpr (.call function (cosine inner))).Regular 5 := by
  refine ⟨rfl, fun entry among atom occurs => ?_⟩
  rw [List.mem_singleton.mp among] at occurs
  simp only [cosine, Expr.occurrences, List.mem_singleton] at occurs
  subst occurs
  exact ⟨Atom.within_whole scalar, issued⟩

theorem reachable (scalar : inner.shape = .scalar) (issued : inner.number < 5) :
    Reachable Simplifier.keep (registered inner) := by
  refine Reachable.step _ (Reachable.step _ (Reachable.step _ (Reachable.step _
    (Reachable.start ⟨5⟩ new_standard) ?_) ?_) ?_) ?_
  · exact (by decide : 1 < 5)
  · exact ⟨(by decide : 2 < 5), Tensor.regular_ofSymbol (by decide : 1 < 5)⟩
  · exact ⟨(by decide : 3 < 5), regular_call scalar issued .sin⟩
  · exact ⟨(by decide : 4 < 5), regular_call rfl (by decide : 1 < 5) .exp⟩

theorem builds (reached : Reachable Simplifier.keep (registered inner))
    (bound : (registered inner).graph.unbound?.isNone = true)
    (leveled : (registered inner).graph.relink.findLevels.toOption.isSome = true) :
    ∃ levels report,
      build.perform (registered inner) = (.ok report, (registered inner).rebuilt levels) := by
  obtain ⟨valid, keeps⟩ := reached.fit Simplifier.keep_tame
  have orderly := valid.toLawful.orderly_of_checks bound leveled
  obtain ⟨levels, report, _, succeeds⟩ := orderly.build_ok (keeps ▸ Simplifier.keep_tame.toModest)
  exact ⟨levels, report, succeeds⟩

/-- The cosine of `y`, which `p` and `q` use, is written out once. -/
theorem work_shared_once_cosines : ∃ report later names made,
    build.perform (registered y) = (.ok report, later) ∧
      Rendered (registered y).graph.condensed names made
        ((registered y).graph.condensed.nameRepeated (registered y).supply).2.1
        ((registered y).graph.condensed.nameRepeated (registered y).supply).1 ∧
      ((registered y).graph.condensed.entries.flatMap Expr.parts).count (cosine y) = 2 ∧
      ((registered y).graph.condensed.writtenOut names made).count (cosine y) = 1 := by
  have reached : Reachable Simplifier.keep (registered y) := reachable rfl (by decide)
  obtain ⟨levels, report, succeeds⟩ :=
    builds reached (by with_unfolding_all decide) (by with_unfolding_all decide)
  obtain ⟨names, made, _, shares, rendered, _⟩ := work_shared_once Simplifier.keep_tame reached
    (by decide) (by decide) (by decide) succeeds
  have entries : (registered y).graph.condensed.entries =
      [.atom (.whole y), .call .sin (cosine y), .call .exp (cosine y)] := by
    with_unfolding_all rfl
  refine ⟨report, _, names, made, succeeds, rendered, ?_, ?_⟩
  · rw [entries]
    simp [Expr.parts_eq, cosine, Expr.children]
  · refine shares.all (by decide) (.call .sin (cosine y)) ?_ (cosine y) ?_ ?_
    · simp [entries]
    · simp [Expr.parts_eq, cosine, Expr.children]
    · refine ⟨rfl, ?_⟩
      rw [cosine, Expr.operations_eq]
      simp [Expr.operationsAt]

theorem entries_renamed : (registered m).graph.condensed.entries =
    [.atom (.whole y), .call .sin (cosine m), .call .exp (cosine y)] := by
  with_unfolding_all rfl

theorem countOf_renamed (expr : Expr RealNumber) :
    countOf (registered m).graph.condensed.counts expr ≤ 1 := by
  have unique : [cosine y, .call .exp (cosine y), cosine m, .call .sin (cosine m)].Nodup := by
    simp [cosine, y, m]
  refine le_trans (le_of_eq ?_) (List.nodup_iff_count_le_one.mp unique expr)
  rw [counts_eq, entries_renamed]
  simp only [countAll, countIn, enter, cosine, y, m]
  simp [countOf_increment, List.count_cons]

theorem isRepeated_renamed : (registered m).graph.condensed.isRepeated = fun _ => false := by
  funext expr
  have least : (registered m).graph.condensed.settings.minOccurrences = 2 := by
    with_unfolding_all rfl
  have most := countOf_renamed expr
  rw [isRepeated, least, decide_eq_false_iff_not]
  omega

theorem entries_shared :
    ((registered m).graph.condensed.shareRepeated ⟨5⟩).1.eliminateAliases.1.entries =
      [.call .sin (cosine y), .call .exp (cosine y)] := by
  have run : (registered m).graph.condensed.sharingRun ⟨5⟩ = Hoist.perform
      ((registered m).graph.condensed.equations.mapM fun equation =>
        shareValue (fun _ => false) equation.value)
      ((registered m).graph.condensed.hoistingOf (fun _ => false)
        (registered m).graph.condensed.nextTemporary ⟨5⟩) := by
    rw [sharingRun, isRepeated_renamed]
  rw [shareRepeated]
  simp only
  rw [nameRepeated_created, nameRepeated_fst, run]
  with_unfolding_all rfl

/-- The removal of the alias makes two expressions equal that were not so before, and both stay. -/
theorem renamed_repeated : Reachable Simplifier.keep (registered m) ∧
    (registered m).graph.settings = .standard ∧ isHoistable (cosine y) = true ∧
    ∃ report later, build.perform (registered m) = (.ok report, later) ∧
      Settings.standard.minOccurrences ≤
        (later.graph.entries.flatMap Expr.parts).count (cosine y) := by
  have reached : Reachable Simplifier.keep (registered m) := reachable rfl (by decide)
  obtain ⟨levels, report, succeeds⟩ :=
    builds reached (by with_unfolding_all decide) (by with_unfolding_all decide)
  refine ⟨reached, by decide, rfl, report, _, succeeds, ?_⟩
  have entries : ((registered m).rebuilt levels).graph.entries =
      [.call .sin (cosine y), .call .exp (cosine y)] := by
    rw [rebuilt_graph (by decide) (by with_unfolding_all decide)]
    exact entries_shared
  rw [entries]
  simp [Expr.parts_eq, cosine, Expr.children, Settings.standard]

end Cosines

end Graph

end Mechanism
