import Mechanism.Proofs.Graph.Naming
import Mechanism.Proofs.Graph.Work

/-!
How the names are distributed over a graph in which repeated subexpressions get names: what a run of
sharing gives names to, and where the values and the new symbols stand in the graph then.
-/

namespace Mechanism

variable {κ : Type} [Scalar κ] {limit : Nat}

theorem Tensor.Issued.exists_ofExpr {tensor : Tensor κ} (issued : tensor.Issued limit)
    (scalar : tensor.shape.isScalar = true) : ∃ expr, tensor = .ofExpr expr := by
  obtain ⟨shape, entries⟩ := tensor
  have isScalar : shape = .scalar := by simpa [Shape.isScalar] using scalar
  subst isScalar
  obtain ⟨expr, rfl⟩ := List.length_eq_one_iff.mp issued.length_eq
  exact ⟨expr, rfl⟩

namespace Graph

variable {graph : Graph κ} {supply : SymbolSupply}

theorem Lawful.value_eq_ofExpr (lawful : graph.Lawful limit) {equation : Equation κ}
    (among : equation ∈ graph.equations) {expr : Expr κ} :
    equation.value.toExpr = .ok expr ↔ equation.value = .ofExpr expr := by
  obtain ⟨node, member, rfl⟩ := List.mem_map.mp among
  obtain ⟨index, live⟩ := mem_liveNodes.mp member
  constructor
  · exact fun whole => (lawful.regular live).value.eq_ofExpr whole
  · intro whole
    rw [whole]
    rfl

theorem mem_namedValues {repeated : Expr κ → Bool} {equations : List (Equation κ)}
    {expr : Expr κ} : expr ∈ namedValues repeated equations ↔
      isMarked repeated expr = true ∧ ∃ equation ∈ equations, equation.value.toExpr = .ok expr := by
  induction equations using List.reverseRecOn with
  | nil => simp [namedValues]
  | append_singleton init last ih =>
      cases whole : last.value.toExpr with
      | error _ =>
          have step : namedValues repeated (init ++ [last]) = namedValues repeated init := by
            rw [namedValues, List.foldl_append, List.foldl_cons, whole]
            rfl
          simp [step, ih, whole]
      | ok other =>
          have step : namedValues repeated (init ++ [last]) =
              if isHoistable other && repeated other &&
                  !(namedValues repeated init).contains other then
                (namedValues repeated init).insert other last.symbol
              else namedValues repeated init := by
            rw [namedValues, List.foldl_append, List.foldl_cons, whole]
            rfl
          rw [step]
          have member : (∃ equation ∈ init ++ [last], equation.value.toExpr = .ok expr) ↔
              (∃ equation ∈ init, equation.value.toExpr = .ok expr) ∨ other = expr := by
            simp [or_and_right, exists_or, whole]
          rw [member, and_or_left, ← ih]
          by_cases same : other = expr
          · subst same
            by_cases known : other ∈ namedValues repeated init
            · simp [known]
            · cases marked : isMarked repeated other <;> rw [isMarked] at marked <;>
                simp [marked, known]
          · simp only [same, and_false, or_false]
            split
            · simp [same]
            · rfl

theorem Lawful.isSome_hoistingOf (lawful : graph.Lawful limit) {nextName : Nat} {expr : Expr κ} :
    (graph.hoistingOf graph.isRepeated nextName supply).named[expr]?.isSome ↔
      isMarked graph.isRepeated expr = true ∧
        ∃ equation ∈ graph.equations, equation.value = .ofExpr expr := by
  have values : (∃ equation ∈ graph.equations, equation.value.toExpr = .ok expr) ↔
      ∃ equation ∈ graph.equations, equation.value = .ofExpr expr :=
    exists_congr fun equation => and_congr_right fun among => lawful.value_eq_ofExpr among
  rw [hoistingOf, Std.HashMap.isSome_getElem?_iff_mem, mem_namedValues, values]

/-- What the pass makes of a graph: every value is written with the names in it, and every new name
has an equation. -/
structure Rendered (graph : Graph κ) (names : Expr κ → Option Symbol) (made : List (Expr κ))
    (created : List Nat) (after : Graph κ) : Prop where
  old : ∀ {index : Nat} {node : Node κ}, graph.node? index = some node →
    after.node? index = some (node.withValue (node.value.render names))
  new : List.Forall₂ (fun expr index => ∃ symbol, names expr = some symbol ∧
    after.node? index = some (temporaryNode (symbol, expr.renderBelow names))) made created
  only : ∀ {index : Nat} {node : Node κ}, after.node? index = some node →
    (∃ former, graph.node? index = some former) ∨ index ∈ created
  source : ∀ {expr : Expr κ} {symbol : Symbol}, names expr = some symbol →
    (∃ node, graph.nodeOf? symbol = some node ∧ node.value = .ofExpr expr) ∨ expr ∈ made
  apart : ∀ {first second : Expr κ} {symbol : Symbol},
    names first = some symbol → names second = some symbol → first = second

/-- The shared values of a graph, and the names that there are at the end. -/
def sharingRun (graph : Graph κ) (supply : SymbolSupply) : List (Tensor κ) × Hoisting κ :=
  Hoist.perform (graph.equations.mapM fun equation => shareValue graph.isRepeated equation.value)
    (graph.hoistingOf graph.isRepeated graph.nextTemporary supply)

theorem exists_grown (graph : Graph κ) (supply : SymbolSupply) :
    ∃ made, Grown graph.isRepeated made
        (graph.hoistingOf graph.isRepeated graph.nextTemporary supply) (graph.sharingRun supply).2 ∧
      ∀ names, Completes graph.isRepeated names (graph.sharingRun supply).2 →
        List.Forall₂ (fun equation result =>
          RendersValue graph.isRepeated names equation.value result)
            graph.equations (graph.sharingRun supply).1 := by
  have traces : Hoist.Traces graph.isRepeated (fun _ => True)
      (graph.equations.mapM fun equation => shareValue graph.isRepeated equation.value)
      fun names results => List.Forall₂ (fun equation result =>
        RendersValue graph.isRepeated names equation.value result) graph.equations results :=
    Hoist.traces_mapM fun equation _ => traces_shareValue equation.value
  obtain ⟨made, grown, _, holds⟩ :=
    traces (graph.hoistingOf graph.isRepeated graph.nextTemporary supply)
  exact ⟨made, grown, holds⟩

namespace Grown

variable {made : List (Expr κ)} {state : Hoisting κ} {nextName : Nat}
  (grown : Grown graph.isRepeated made (graph.hoistingOf graph.isRepeated nextName supply) state)
  (lawful : graph.Lawful limit)

include grown lawful

theorem isSome_iff (expr : Expr κ) : state.named[expr]?.isSome ↔ expr ∈ made ∨
    isMarked graph.isRepeated expr = true ∧
      ∃ equation ∈ graph.equations, equation.value = .ofExpr expr := by
  rw [grown.known, or_comm, lawful.isSome_hoistingOf]

theorem completes_end : Completes graph.isRepeated (fun expr => state.named[expr]?) state :=
  grown.completes_self fun _ known => (lawful.isSome_hoistingOf.mp known).1

theorem source {expr : Expr κ} {symbol : Symbol} (found : state.named[expr]? = some symbol) :
    (∃ node, graph.nodeOf? symbol = some node ∧ node.value = .ofExpr expr) ∨ expr ∈ made := by
  rcases (grown.known expr).mp (Option.isSome_iff_exists.mpr ⟨symbol, found⟩) with first | member
  · obtain ⟨other, before⟩ := Option.isSome_iff_exists.mp first
    have same : other = symbol := Option.some.inj ((grown.kept before).symm.trans found)
    exact Or.inl (hoistingOf_named lawful (same ▸ before))
  · exact Or.inr member

theorem distributed (apart : graph.equations.Pairwise fun first second =>
      first.value = second.value → first.value.operations = 0)
    (clear : ∀ equation ∈ graph.equations,
      ∀ part ∈ equation.value.written (fun expr => state.named[expr]?),
        isMarked graph.isRepeated part = true →
          equation.value.shape.isScalar = true ∧ part ∈ equation.value.entries) :
    Distributed graph (fun expr => state.named[expr]?) made where
  apart := apart
  unique := grown.unique
  known := fun {expr} => grown.isSome_iff lawful expr
  marked := by
    intro expr named
    rcases (grown.isSome_iff lawful expr).mp named with member | ⟨marked, _⟩
    · exact grown.marked expr member
    · exact marked
  fresh := by
    intro expr member equation among value
    have first := grown.fresh expr member
    rw [← Option.not_isSome_iff_eq_none, lawful.isSome_hoistingOf] at first
    exact first ⟨grown.marked expr member, equation, among, value⟩
  clear := by
    intro equation among part written marked
    obtain ⟨scalar, entry⟩ := clear equation among part written marked
    obtain ⟨node, liveNode, rfl⟩ := List.mem_map.mp among
    obtain ⟨index, live⟩ := mem_liveNodes.mp liveNode
    obtain ⟨expr, value⟩ := (lawful.regular live).value.exists_ofExpr scalar
    rw [show node.equation.value = _ from value] at entry ⊢
    rw [List.mem_singleton.mp entry]
  clearMade := by
    intro expr member
    obtain ⟨position, bound, rfl⟩ := List.getElem_of_mem member
    have aligned := grown.renders rfl (grown.completes_end lawful)
    exact (aligned.get bound (aligned.length_eq ▸ bound)).clear

end Grown

theorem Hoisted.apart {start state : Hoisting κ} {good : Atom → Prop} {named : Naming κ}
    {repeated : Expr κ → Bool} {names : Expr κ → Option Symbol} {made : List (Expr κ)}
    (hoisted : Hoisted start good named state) (lawful : graph.Lawful start.supply.next)
    (renders : List.Forall₂ (Renders repeated names) made state.temporaries)
    (source : ∀ {expr : Expr κ} {symbol : Symbol}, names expr = some symbol →
      (∃ node, graph.nodeOf? symbol = some node ∧ node.value = .ofExpr expr) ∨ expr ∈ made)
    {first second : Expr κ} {symbol : Symbol} (one : names first = some symbol)
    (other : names second = some symbol) : first = second := by
  have place : ∀ {expr : Expr κ}, expr ∈ made → names expr = some symbol →
      ∃ position, ∃ bound : position < made.length, made[position] = expr ∧
        (state.temporaries.map (·.1))[position]? = some symbol := by
    intro expr member found
    obtain ⟨position, bound, rfl⟩ := List.getElem_of_mem member
    have inside : position < state.temporaries.length := renders.length_eq ▸ bound
    refine ⟨position, bound, rfl, ?_⟩
    rw [List.getElem?_map, List.getElem?_eq_getElem inside, ← found]
    exact (renders.get bound inside).named.symm
  have issued : ∀ {node : Node κ}, graph.nodeOf? symbol = some node →
      symbol ∉ state.temporaries.map (·.1) := fun found =>
    hoisted.notTemporary (lawful.defined_issued (isDefined_iff.mpr ⟨_, found⟩))
  rcases source one with ⟨node, found, value⟩ | member <;>
    rcases source other with ⟨third, again, valueAgain⟩ | memberAgain
  · rw [found, Option.some.injEq] at again
    subst again
    rw [value] at valueAgain
    cases valueAgain
    rfl
  · obtain ⟨_, _, _, last⟩ := place memberAgain other
    exact absurd (List.mem_of_getElem? last) (issued found)
  · obtain ⟨_, _, _, last⟩ := place member one
    exact absurd (List.mem_of_getElem? last) (issued again)
  · obtain ⟨position, bound, rfl, last⟩ := place member one
    obtain ⟨positionAgain, _, rfl, lastAgain⟩ := place memberAgain other
    have inside : position < (state.temporaries.map (·.1)).length := by
      rw [List.length_map, ← renders.length_eq]
      exact bound
    have same := (List.getElem?_inj inside hoisted.nodup).mp (last.trans lastAgain.symm)
    subst same
    rfl

theorem mem_zip_live {α : Type} (change : Equation κ → α) {index : Nat} {node : Node κ}
    (live : graph.node? index = some node) :
    (index, change node.equation) ∈ graph.liveIndices.zip (graph.equations.map change) := by
  have aligned := forall₂_live graph
  obtain ⟨position, bound, here⟩ := List.getElem_of_mem (mem_liveIndices.mpr ⟨node, live⟩)
  have inside : position < graph.equations.length := aligned.length_eq ▸ bound
  obtain ⟨other, found, equation⟩ := aligned.get bound inside
  have same : other = node := by
    rw [List.get_eq_getElem, here, live, Option.some.injEq] at found
    exact found.symm
  subst same
  refine List.mem_iff_getElem.mpr ⟨position, by simp [bound, inside], ?_⟩
  rw [List.getElem_zip, List.getElem_map, here, equation, List.get_eq_getElem]

theorem Extended.node?_old {temporaries : List (Symbol × Expr κ)} {before after : Graph κ}
    (extended : Extended temporaries before after) {index : Nat}
    (bound : index < before.nodes.length) : after.node? index = before.node? index := by
  rw [node?, node?, extended.nodes, List.getElem?_append_left bound]

def revaluedBy (graph : Graph κ) (run : List (Tensor κ) × Hoisting κ) : Graph κ :=
  ({ graph with nextTemporary := run.2.nextName } : Graph κ).setValues
    (graph.liveIndices.zip run.1)

theorem nameRepeated_fst (graph : Graph κ) (supply : SymbolSupply) :
    (graph.nameRepeated supply).1 = (graph.sharingRun supply).2.temporaries.foldl appendTemporary
      (graph.revaluedBy (graph.sharingRun supply)) := rfl

theorem nameRepeated_created (graph : Graph κ) (supply : SymbolSupply) :
    (graph.nameRepeated supply).2.1 =
      (List.range (graph.sharingRun supply).2.temporaries.length).map
        ((graph.revaluedBy (graph.sharingRun supply)).nodes.length + ·) := rfl

theorem node?_revaluedBy {run : List (Tensor κ) × Hoisting κ}
    {names : Expr κ → Option Symbol}
    (values : run.1 = graph.equations.map fun equation => equation.value.render names)
    (index : Nat) : (graph.revaluedBy run).node? index =
      (graph.node? index).map fun node => node.withValue (node.value.render names) := by
  have indices : (graph.liveIndices.zip run.1).map (·.1) = graph.liveIndices := by
    rw [values]
    exact List.map_fst_zip (by simp [(forall₂_live graph).length_eq])
  have unique : ((graph.liveIndices.zip run.1).map (·.1)).Nodup := by
    rw [indices]
    exact nodup_liveIndices graph
  have base : ∀ index, ({ graph with nextTemporary := run.2.nextName } : Graph κ).node? index =
      graph.node? index := fun _ => rfl
  cases found : graph.node? index with
  | some node =>
      have among := mem_zip_live (fun equation => equation.value.render names) found
      rw [← values] at among
      rw [revaluedBy, node?_setValues unique among, base, found]
      rfl
  | none =>
      have absent : index ∉ (graph.liveIndices.zip run.1).map (·.1) := by
        rw [indices]
        intro member
        obtain ⟨node, live⟩ := mem_liveIndices.mp member
        rw [found] at live
        cases live
      rw [revaluedBy, node?_setValues_of_notMem absent, base, found]
      rfl

theorem nameRepeated_rendered (orderly : graph.Orderly supply.next)
    (apart : graph.equations.Pairwise fun first second =>
      first.value = second.value → first.value.operations = 0) :
    ∃ names made, Distributed graph names made ∧
      Rendered graph names made (graph.nameRepeated supply).2.1 (graph.nameRepeated supply).1 := by
  have lawful := orderly.toLawful
  obtain ⟨made, grown, holds⟩ := exists_grown graph supply
  rw [nameRepeated_fst, nameRepeated_created]
  obtain ⟨run, same⟩ : ∃ run, run = graph.sharingRun supply := ⟨_, rfl⟩
  obtain ⟨_, hoisted, shared⟩ := exists_hoisted orderly graph.isRepeated graph.nextTemporary same
  rw [← same] at grown holds ⊢
  have completes := grown.completes_end lawful
  have renders := grown.renders rfl completes
  obtain ⟨values, clear⟩ := forall₂_eq_map (holds _ completes)
  obtain ⟨extended, _⟩ :=
    extended_appendTemporaries (hoisted.appendable orderly (hoisted.revalued orderly shared))
  have extended : Extended run.2.temporaries (graph.revaluedBy run)
      (run.2.temporaries.foldl appendTemporary (graph.revaluedBy run)) := extended
  have node? := node?_revaluedBy values
  refine ⟨_, made, grown.distributed lawful apart clear, ?_, ?_, ?_, grown.source lawful,
    hoisted.apart lawful renders (grown.source lawful)⟩
  · intro index node live
    have now := node? index
    rw [live, Option.map_some] at now
    rw [extended.node?_old (node?_lt now), now]
  · refine List.forall₂_iff_get.mpr ⟨by simp [renders.length_eq], ?_⟩
    intro position bound inside
    have place : position < run.2.temporaries.length := renders.length_eq ▸ bound
    have renders := renders.get bound place
    refine ⟨_, renders.named, ?_⟩
    rw [List.get_eq_getElem, List.getElem_map, List.getElem_range, extended.node?_temporary place,
      ← renders.value_eq]
    rfl
  · intro index node found
    by_cases old : index < (graph.revaluedBy run).nodes.length
    · rw [extended.node?_old old, node?] at found
      obtain ⟨former, live, _⟩ := Option.map_eq_some_iff.mp found
      exact Or.inl ⟨former, live⟩
    · have bound := node?_lt found
      rw [extended.nodes, List.length_append, List.length_map] at bound
      refine Or.inr (List.mem_map.mpr ⟨index - _, List.mem_range.mpr ?_, Nat.add_sub_of_le ?_⟩) <;>
        omega

end Graph

end Mechanism
