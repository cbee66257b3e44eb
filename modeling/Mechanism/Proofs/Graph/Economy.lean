import Mechanism.Proofs.Expr.Constructed
import Mechanism.Proofs.Expr.Guarded
import Mechanism.Proofs.Graph.Effort

/-!
What a build costs. A name for a repeated subexpression takes no effort that was not there before,
and neither does any other pass, so that a build adds no operations but some with a constant
operand. It can add these: where an alias vanishes, a sum can become a product, over whose factors
a power is spread.
-/

namespace Mechanism

variable {κ : Type} [Scalar κ] {unit less : Symbol → Nat} {names : Expr κ → Option Symbol}

namespace Tensor

variable (lightens : Expr.Lightens unit less names) (tensor : Tensor κ)

include lightens

theorem effort_render_le : (tensor.render names).effort less ≤
    ((tensor.written names).map (Expr.ownEffort unit)).sum := by
  rw [effort, render, written, List.map_map, Grouping.sum_map_flatMap]
  refine List.sum_le_sum fun entry _ => ?_
  rw [Function.comp_apply, Expr.effort]
  split
  · have rendered := lightens.renderBelow entry
    omega
  · have rendered := lightens.render entry
    omega

theorem weightless_render (weightless : tensor.Weightless unit) :
    (tensor.render names).Weightless less := by
  intro entry member
  obtain ⟨former, among, rfl⟩ := List.mem_map.mp member
  have none := weightless former among
  split
  · exact Nat.eq_zero_of_le_zero ((lightens.renderBelow_le former).trans_eq none)
  · exact Nat.eq_zero_of_le_zero ((lightens.render_le former).trans_eq none)

end Tensor

namespace Graph

variable {graph after : Graph κ} {limit : Nat} {made : List (Expr κ)} {created : List Nat}
  {constant : Symbol → Prop} {supply : SymbolSupply}

/-- A symbol that is constant, or by which a part is known that is made of constants. -/
def ConstantBy (names : Expr κ → Option Symbol) (constant : Symbol → Prop) (symbol : Symbol) : Prop :=
  constant symbol ∨ ∃ part, names part = some symbol ∧ part.load (unitOf constant) = 0

theorem lightens_constantBy (names : Expr κ → Option Symbol) (constant : Symbol → Prop) :
    Expr.Lightens (unitOf constant) (unitOf (ConstantBy names constant)) names where
  le := fun symbol => unitOf_mono .inl
  named := by
    intro part symbol known
    by_cases weightless : part.load (unitOf constant) = 0
    · exact (unitOf_eq_zero.mpr (.inr ⟨part, known, weightless⟩)).trans_le (Nat.zero_le _)
    · have most := unitOf_le_one (ConstantBy names constant) symbol
      omega

theorem effortOver_eq (graph : Graph κ) (constant : Symbol → Prop) :
    graph.effortOver constant = (graph.entries.map (Expr.effort (unitOf constant))).sum := by
  rw [entries, Grouping.sum_map_flatMap]
  rfl

theorem Distributed.sum_ownEffort_le (distributed : Distributed graph names made)
    (positive : 0 < graph.settings.minOccurrences) (atMost : ∀ symbol, unit symbol ≤ 1) :
    ((graph.writtenOut names made).map (Expr.ownEffort unit)).sum ≤
      (graph.entries.map (Expr.effort unit)).sum := by
  calc
    _ ≤ ((graph.entries.flatMap Expr.parts).map (Expr.ownEffort unit)).sum := by
      refine sum_map_le fun part _ effortful => distributed.count_le_parts positive fun none => ?_
      have own : part.ownEffort unit + (part.children.map (Expr.effort unit)).sum ≤
          part.effort unit := Expr.ownEffort_add_le part
      have most := Expr.effort_le_operations atMost part
      omega
    _ ≤ _ := by
      rw [Grouping.sum_map_flatMap]
      exact List.sum_le_sum fun entry _ => Expr.sum_written_le _ entry

namespace Rendered

variable (rendered : Rendered graph names made created after)

include rendered

theorem sum_equations_le {weight first : Equation κ → Nat} {second : Expr κ → Nat}
    (old : ∀ {index : Nat} {node : Node κ}, graph.node? index = some node →
      weight (node.withValue (node.value.render names)).equation ≤ first node.equation)
    (new : ∀ expr symbol,
      weight (temporaryNode (symbol, expr.renderBelow names)).equation ≤ second expr) :
    (after.equations.map weight).sum ≤ (graph.equations.map first).sum + (made.map second).sum := by
  have added : (created.map (after.weightAt weight)).sum ≤ (made.map second).sum := by
    refine List.Forall₂.sum_le_sum (List.forall₂_map_left_iff.mpr (List.forall₂_map_right_iff.mpr
      (rendered.new.flip.imp ?_)))
    rintro index expr ⟨symbol, _, live⟩
    exact (weightAt_live live).trans_le (new expr symbol)
  have each (index : Nat) : after.weightAt weight index ≤ graph.weightAt first index +
      if index ∈ created then after.weightAt weight index else 0 := by
    cases live : after.node? index with
    | none => simp [weightAt, live]
    | some node =>
        rcases rendered.only live with ⟨former, found⟩ | member
        · rw [rendered.old found, Option.some.injEq] at live
          subst live
          rw [weightAt_live (rendered.old found), weightAt_live found]
          exact (old found).trans (Nat.le_add_right _ _)
        · rw [if_pos member]
          exact Nat.le_add_left _ _
  rw [sum_equations after]
  calc
    _ ≤ ∑ index ∈ Finset.range after.nodes.length, graph.weightAt first index +
          ∑ index ∈ Finset.range after.nodes.length,
            if index ∈ created then after.weightAt weight index else 0 := by
      rw [← Finset.sum_add_distrib]
      exact Finset.sum_le_sum fun index _ => each index
    _ ≤ _ := by
      refine Nat.add_le_add (graph.sum_weightAt_le first _) (le_trans ?_ added)
      rw [← Finset.sum_filter, Finset.sum_list_map_count]
      calc
        _ ≤ ∑ index ∈ created.toFinset, after.weightAt weight index := by
          refine Finset.sum_le_sum_of_subset fun index member => ?_
          exact List.mem_toFinset.mpr (Finset.mem_filter.mp member).2
        _ ≤ _ := by
          refine Finset.sum_le_sum fun index member => ?_
          exact Nat.le_mul_of_pos_left _ (List.count_pos_iff.mpr (List.mem_toFinset.mp member))

theorem constants (lawful : graph.Lawful limit) (constants : graph.Constants constant) :
    after.Constants (ConstantBy names constant) := by
  have lightens := lightens_constantBy names constant
  have kept {index : Nat} {node : Node κ} (live : graph.node? index = some node)
      (weightless : node.value.Weightless (unitOf constant)) :
      after.Computed (ConstantBy names constant) node.symbol :=
    ⟨index, _, rendered.old live, rfl, node.value.weightless_render lightens weightless⟩
  rintro symbol (member | ⟨part, known, weightless⟩)
  · obtain ⟨index, node, live, rfl, weightless⟩ := constants symbol member
    exact kept live weightless
  · rcases rendered.source known with ⟨node, found, whole⟩ | member
    · obtain ⟨index, live, rfl⟩ := lawful.nodeOf?_iff.mp found
      refine kept live fun entry among => ?_
      rw [whole] at among
      rwa [List.mem_singleton.mp among]
    · obtain ⟨position, bound, rfl⟩ := List.getElem_of_mem member
      obtain ⟨other, named, live⟩ :=
        rendered.new.get bound (rendered.new.length_eq ▸ bound)
      obtain rfl := Option.some.inj (known.symm.trans named)
      refine ⟨_, _, live, rfl, fun entry among => ?_⟩
      rw [List.mem_singleton.mp among]
      exact Nat.eq_zero_of_le_zero ((lightens.renderBelow_le _).trans_eq weightless)

theorem effortOver_le (distributed : Distributed graph names made)
    (positive : 0 < graph.settings.minOccurrences) :
    after.effortOver (ConstantBy names constant) ≤ graph.effortOver constant := by
  have lightens := lightens_constantBy names constant
  rw [graph.effortOver_eq]
  refine le_trans ?_ (distributed.sum_ownEffort_le positive (unitOf_le_one constant))
  rw [writtenOut, List.map_append, List.sum_append, Grouping.sum_map_flatMap,
    Grouping.sum_map_flatMap]
  refine rendered.sum_equations_le (fun {_ node} _ => node.value.effort_render_le lightens)
    fun expr symbol => ?_
  have rendered := lightens.renderBelow expr
  simp only [temporaryNode, Node.ofEquation, Tensor.effort, Tensor.ofExpr, List.map_cons, List.map_nil,
    List.sum_cons, List.sum_nil, Nat.add_zero, Expr.effort]
  omega

end Rendered

theorem nameRepeated_eases (orderly : graph.Orderly supply.next)
    (apart : graph.equations.Pairwise fun first second =>
      first.value = second.value → first.value.operations = 0)
    (positive : 0 < graph.settings.minOccurrences) : Eases graph (graph.nameRepeated supply).1 := by
  obtain ⟨names, made, distributed, rendered⟩ := nameRepeated_rendered orderly apart
  exact fun constant constants => ⟨ConstantBy names constant,
    rendered.constants orderly.toLawful constants, rendered.effortOver_le distributed positive⟩

theorem eases_relink (graph : Graph κ) : Eases graph graph.relink := eases_of_nodes fun _ => rfl

theorem eases_finished (graph : Graph κ) (levels : List (List Nat)) :
    Eases graph (graph.finished levels) := eases_of_nodes fun _ => rfl

theorem shareWanted_eases (orderly : graph.Orderly supply.next)
    (apart : graph.equations.Pairwise fun first second =>
      first.value = second.value → first.value.operations = 0)
    (positive : 0 < graph.settings.minOccurrences) : Eases graph (graph.shareWanted supply).1 := by
  unfold shareWanted
  split
  · exact (nameRepeated_eases orderly apart positive).trans
      (foldl_inlineOne_eases _ (waiting_nameRepeated orderly) 0)
  · exact Eases.refl graph

theorem optimized_eases (orderly : graph.Orderly supply.next) (placed : graph.Placed)
    (tame : graph.simplifier.Tame) (light : graph.simplifier.Light)
    (positive : 0 < graph.settings.minOccurrences) :
    Eases graph (graph.optimized supply).graph := by
  rcases optimized_eq graph supply with ⟨same, _⟩ | ⟨same, _⟩
  · rw [same]
    exact Eases.refl graph
  · rw [same]
    have folded := folded_rewritten orderly tame.toModest
    have shared := shareWanted_rewritten folded.orderly
    have first := folded_eases orderly tame.toModest light
    have second := shareWanted_eases folded.orderly (foldDuplicates_apart _)
      (positive.trans_eq (congrArg Settings.minOccurrences folded.settings.symm))
    have stillPlaced := (folded.trans shared).placed tame placed
    exact ((first.trans second).trans (eliminateAliases_eases shared.orderly stillPlaced)).trans
      (eases_relink _)

theorem report_of_build {session later : Session κ} {report : BuildReport}
    (orderly : session.graph.Orderly session.supply.next)
    (modest : session.graph.simplifier.Modest)
    (built : build.perform session = (.ok report, later)) :
    ∃ levels, later = session.rebuilt levels ∧
      report.operationsBefore = session.graph.operations ∧
      report.operationsAfter = later.graph.operations := by
  have improved := optimized_improved orderly.relink modest
  rcases perform_build session with ⟨_, _, fails⟩ | ⟨_, ⟨_, _, fails⟩ | ⟨_, _, ⟨_, stuck⟩ | succeeds⟩⟩
  · rw [fails] at built
    cases built
  · rw [fails] at built
    cases built
  · obtain ⟨levels, found⟩ := exists_findLevels improved.lawful improved.acyclic
    rw [stuck] at found
    cases found
  · obtain ⟨levels, _, succeeds⟩ := succeeds
    rw [succeeds] at built
    cases built
    exact ⟨levels, rfl, rfl, rfl⟩

theorem eases_of_build {simplifier : Simplifier κ} (tame : simplifier.Tame)
    (light : simplifier.Light) {session later : Session κ} {report : BuildReport}
    (reachable : Reachable simplifier session) (built : build.perform session = (.ok report, later)) :
    Eases session.graph later.graph := by
  have fault := reachable.fault? tame
  have placed : session.graph.relink.Placed := (reachable.placed tame).of_node? fun _ => rfl
  obtain ⟨valid, rfl⟩ := reachable.fit tame
  have orderly := (build_ok_iff valid.toLawful tame.toModest).mp ⟨report, later, built⟩
  have positive : 0 < session.graph.settings.minOccurrences := by
    unfold Settings.fault? at fault
    split at fault
    · cases fault
    · rename_i enough
      exact Nat.zero_lt_of_lt (not_lt.mp enough)
  obtain ⟨levels, rfl, _⟩ := report_of_build orderly tame.toModest built
  exact ((eases_relink _).trans (optimized_eases orderly.relink placed tame light positive)).trans
    (eases_finished _ levels)

theorem operations_rebuilt_plain {session : Session κ}
    (plain : session.graph.settings.optimize = false) (levels : List (List Nat)) :
    (session.rebuilt levels).graph.operations = session.graph.operations := by
  have same : (session.graph.relink.optimized session.supply).graph = session.graph.relink := by
    have kept : session.graph.relink.settings.optimize = false := plain
    rw [optimized, if_neg (by simp [kept])]
  rw [Session.rebuilt, same]
  rfl

/-- A build with one of the two simplifiers adds no effort: arithmetic with a constant operand apart,
the operations are no more in the built graph than in the graph before, and so at most all those that
are reported for it. Without optimisation the operations that are reported are the same ones. -/
theorem build_adds_no_effort {simplifier : Simplifier κ}
    (either : simplifier = .keep ∨ ∃ limit, simplifier = .basic limit)
    {session later : Session κ} {report : BuildReport} (reachable : Reachable simplifier session)
    (built : build.perform session = (.ok report, later)) :
    report.operationsBefore = session.graph.operations ∧
      report.operationsAfter = later.graph.operations ∧
      later.graph.effort ≤ session.graph.effort ∧
      session.graph.effort ≤ report.operationsBefore ∧
      (session.graph.settings.optimize = false →
        report.operationsAfter = report.operationsBefore) := by
  have simple : simplifier.Tame ∧ simplifier.Light := by
    rcases either with rfl | ⟨limit, rfl⟩
    · exact ⟨Simplifier.keep_tame, Simplifier.keep_light⟩
    · exact ⟨Simplifier.basic_tame limit, Simplifier.basic_light limit⟩
  have eases := eases_of_build simple.1 simple.2 reachable built
  obtain ⟨valid, rfl⟩ := reachable.fit simple.1
  have orderly := (build_ok_iff valid.toLawful simple.1.toModest).mp ⟨report, later, built⟩
  obtain ⟨levels, rfl, before, after⟩ := report_of_build orderly simple.1.toModest built
  refine ⟨before, after, eases.effort_le, before ▸ effort_le_operations _, fun plain => ?_⟩
  rw [before, after, operations_rebuilt_plain plain]

theorem operations_eq_entries (graph : Graph κ) :
    graph.operations = (graph.entries.map Expr.operations).sum := by
  rw [operations, total_eq, entries, Grouping.sum_map_flatMap]
  exact congrArg List.sum (List.map_congr_left fun equation _ => total_eq _)

namespace Spread

def scalar (number : Nat) (name : String) : Symbol := ⟨number, name, .scalar, .real⟩

def inputs : List Symbol :=
  [scalar 1 "a", scalar 2 "b", scalar 3 "c", scalar 4 "d", scalar 5 "e", scalar 6 "q"]

def q : Symbol := scalar 6 "q"

def p : Symbol := scalar 7 "p"

def y : Symbol := scalar 8 "y"

def entry (symbol : Symbol) : Expr RealNumber := .atom (.whole symbol)

noncomputable def minus : Expr RealNumber := .num Guarded.minus

noncomputable def two : Expr RealNumber := .num ⟨1 + 1⟩

def factors : List (Expr RealNumber) := (inputs.take 5).map entry

noncomputable def volume : Expr RealNumber := .mul (Expr.arrange factors)

noncomputable def difference : Expr RealNumber :=
  .add [entry p, .mul [minus, entry q], volume]

/-- The input `q` is renamed `p`, and `y` is a square of a sum in which the two cancel. -/
noncomputable def registered : Session RealNumber :=
  (Command.register "y" y (.ofExpr (.pow difference two)) (.only .sensor)).apply
    ((Command.register "p" p (.ofSymbol q) (.only .variable)).apply
      (inputs.foldl (fun session symbol =>
        (Command.declareInput symbol (.only .parameter) none).apply session)
        ⟨ofSettings ⟨true, false, 2, true⟩ Simplifier.keep, ⟨9⟩⟩))

/-! The values before the build, and after it. -/

theorem several_factors : 2 ≤ factors.length := by decide

theorem atoms_factors : ∀ factor ∈ factors, ∃ symbol, factor = .atom symbol := by
  intro factor member
  obtain ⟨symbol, _, rfl⟩ := List.mem_map.mp member
  exact ⟨_, rfl⟩

theorem nodup_factors : factors.Nodup := by simp [factors, inputs, scalar, entry]

theorem unscaled_volume : volume.Unscaled :=
  Expr.unscaled_symbols several_factors atoms_factors nodup_factors

theorem product_factors : Expr.product (Expr.arrange factors) = volume :=
  unscaled_volume.canonical.rebuild_eq

theorem product_minus : Expr.product [minus, entry q] = .mul [minus, entry q] := by
  have unscaled : (entry q).Unscaled :=
    Expr.unscaled_of_leaf (Expr.canonical_leaf trivial rfl) rfl nofun
  exact (Expr.canonical_scaledBy unscaled Guarded.isZero_minus Guarded.isOne_minus).rebuild_eq

theorem likeTerms_difference : Expr.likeTerms [entry q, .mul [minus, entry q], volume] =
    [(entry q, 0 + 1 + Guarded.minus), (volume, 0 + 1)] := by
  have plain : (entry q).splitCoefficient = (1, entry q) := rfl
  have negated : (Expr.mul [minus, entry q]).splitCoefficient = (Guarded.minus, entry q) := rfl
  have unlike : entry q ≠ volume := nofun
  rw [Expr.likeTerms]
  simp only [List.map_cons, List.map_nil, unscaled_volume.splitCoefficient_eq, plain, negated,
    Grouping.ofPairs_eq]
  simp [Grouping.distinct, Grouping.extend, Grouping.valuesOf, unlike, unlike.symm]

theorem sum_difference : Expr.sum [entry q, .mul [minus, entry q], volume] = volume := by
  have zero : Scalar.isZero (0 + 1 + Guarded.minus : RealNumber) = true :=
    decide_eq_true (show (0 + 1 + -1 : ℝ) = 0 by norm_num)
  have gone (multiply : List (Expr RealNumber) → Expr RealNumber) :
      Expr.scaledTerm? multiply (entry q, 0 + 1 + Guarded.minus) = none := by
    rw [Expr.scaledTerm?, zero, if_pos rfl]
  have leaves : Expr.symbolicIn (Expr.addendsOf [entry q, .mul [minus, entry q], volume]) =
      [entry q, .mul [minus, entry q], volume] := rfl
  have numbers : Expr.numbersIn (Expr.addendsOf [entry q, .mul [minus, entry q], volume]) = [] := rfl
  rw [Expr.sum, Expr.fuelFor, Expr.sumWith]
  simp only [leaves, numbers, likeTerms_difference, List.filterMap_cons, gone,
    Guarded.scaledTerm?_one, List.filterMap_nil, List.foldl_nil, Expr.Neutral.isZero_zero, if_true,
    List.append_nil]
  rfl

theorem operations_power : (Expr.power volume two).operations = 9 := by
  have arranged := Expr.arrange_perm factors
  have power : Expr.power volume two =
      .mul (Expr.arrange ((Expr.arrange factors).map fun factor => .pow factor two)) := by
    refine Expr.power_symbols (several_factors.trans_eq arranged.length_eq.symm)
      (fun factor member => atoms_factors factor (arranged.mem_iff.mp member))
      (arranged.nodup_iff.mpr nodup_factors) ?_ ?_ ?_
    · have whole : Scalar.wholeExponent? (⟨1 + 1⟩ : RealNumber) = some ⌊(1 + 1 : ℝ)⌋ :=
        if_pos (by norm_num)
      exact fun none => nomatch whole.symm.trans none
    · rw [Guarded.isZero_mk]
      norm_num
    · rw [Guarded.isOne_mk]
      norm_num
  have powers := (Expr.arrange_perm _).trans (arranged.map fun factor => Expr.pow factor two)
  have each : factors.map (fun factor => (Expr.pow factor two).operations) = [1, 1, 1, 1, 1] := by
    with_unfolding_all decide
  rw [power, Expr.operations_eq, Expr.operationsAt, Expr.children, total_eq, powers.length_eq,
    (powers.map Expr.operations).sum_eq, List.map_map, Function.comp_def, each]
  rfl

set_option maxRecDepth 20000 in
theorem operations_registered : registered.graph.operations = 8 := by with_unfolding_all decide

set_option maxRecDepth 20000 in
theorem entries_rebuilt (levels : List (List Nat)) : (registered.rebuilt levels).graph.entries =
    [Expr.power (Expr.sum
      [entry q, Expr.product [minus, entry q], Expr.product (Expr.arrange factors)]) two] := by
  with_unfolding_all rfl

theorem operations_rebuilt (levels : List (List Nat)) :
    (registered.rebuilt levels).graph.operations = 9 := by
  rw [operations_eq_entries, entries_rebuilt, product_minus, product_factors, sum_difference]
  simp [operations_power]

/-! The session and its build. -/

theorem regular_value : (Tensor.ofExpr (.pow difference two)).Regular 9 where
  length_eq := rfl
  entries := by
    intro entry among atom occurs
    obtain rfl := List.mem_singleton.mp among
    have reads : ∀ atom ∈ (Expr.pow difference two).occurrences,
        atom ∈ (p :: inputs).map Atom.whole := by with_unfolding_all decide
    have scalars : ∀ symbol ∈ p :: inputs, symbol.shape = .scalar ∧ symbol.number < 9 := by decide
    obtain ⟨symbol, member, rfl⟩ := List.mem_map.mp (reads atom occurs)
    obtain ⟨shape, issued⟩ := scalars symbol member
    exact ⟨Atom.within_whole shape, issued⟩

theorem reachable : Reachable Simplifier.keep registered := by
  have made : new ⟨true, false, 2, true⟩ Simplifier.keep = .ok (ofSettings ⟨true, false, 2, true⟩
      (Simplifier.keep : Simplifier RealNumber)) := rfl
  refine Reachable.step _ (Reachable.step _ (Reachable.step _ (Reachable.step _ (Reachable.step _
    (Reachable.step _ (Reachable.step _ (Reachable.step _
      (Reachable.start ⟨9⟩ made) ?_) ?_) ?_) ?_) ?_) ?_) ?_) ?_
  · exact (by decide : 1 < 9)
  · exact (by decide : 2 < 9)
  · exact (by decide : 3 < 9)
  · exact (by decide : 4 < 9)
  · exact (by decide : 5 < 9)
  · exact (by decide : 6 < 9)
  · exact ⟨(by decide : 7 < 9), Tensor.regular_ofSymbol (by decide : 6 < 9)⟩
  · exact ⟨(by decide : 8 < 9), regular_value⟩

theorem orderly : registered.graph.Orderly registered.supply.next := by
  have lawful := (reachable.fit Simplifier.keep_tame).valid.toLawful
  exact lawful.orderly_of_checks (by decide +kernel) (by decide +kernel)

/-- The alias vanishes, so that the sum becomes a product, and the square is spread over its factors:
the build adds an operation. -/
theorem build_adds_operation : Reachable Simplifier.keep registered ∧ ∃ report later,
    build.perform registered = (.ok report, later) ∧
      report.operationsBefore < report.operationsAfter := by
  obtain ⟨levels, report, _, succeeds⟩ := orderly.build_ok Simplifier.keep_tame.toModest
  obtain ⟨again, same, before, after⟩ := report_of_build orderly Simplifier.keep_tame.toModest
    succeeds
  refine ⟨reachable, report, _, succeeds, ?_⟩
  rw [before, after, operations_registered, operations_rebuilt]
  decide

/-- What was added takes no effort. -/
theorem no_effort_added : ∃ report later, build.perform registered = (.ok report, later) ∧
    report.operationsBefore = 8 ∧ report.operationsAfter = 9 ∧
      later.graph.effort ≤ registered.graph.effort := by
  obtain ⟨levels, report, _, succeeds⟩ := orderly.build_ok Simplifier.keep_tame.toModest
  obtain ⟨before, after, le, _⟩ := build_adds_no_effort (.inl rfl) reachable succeeds
  rw [operations_registered] at before
  rw [operations_rebuilt] at after
  exact ⟨report, _, succeeds, before, after, le⟩

end Spread

end Graph

end Mechanism
