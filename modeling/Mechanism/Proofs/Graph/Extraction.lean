import Mathlib.Logic.Function.Basic
import Mechanism.Proofs.Graph.Answers

/-!
Lists of equations that are taken out of a built graph. They hold what was asked for with all that
it depends on, in the order of the levels, and name the inputs that they read.

Running a list of equations from front to back. Every equation stores the value that a query of the
graph answers for its symbol.
-/

open Relation (ReflTransGen)

namespace Mechanism.Graph

section

variable {κ : Type} [Scalar κ] {limit : Nat} {graph : Graph κ}

/-- A live equation of the output that is not excluded. -/
def Chosen (graph : Graph κ) (output excluded : CategorySet) (index : Nat) : Prop :=
  ∃ node, graph.node? index = some node ∧ node.equation.categories.intersects output = true ∧
    node.equation.categories.intersects excluded = false

/-- The list holds the equations with the given numbers: those that were chosen and all that they
need, each of them once, in the order of levels and numbers. -/
structure Extracted (graph : Graph κ) (output excluded : CategorySet) (numbers : List Nat)
    (list : EquationList κ) : Prop where
  equations : List.Forall₂ (fun index equation => ∃ node, graph.node? index = some node ∧
    node.equation = equation) numbers list.equations
  closure : ∀ index, index ∈ numbers ↔
    ∃ root, graph.Chosen output excluded root ∧ ReflTransGen graph.Needs root index
  once : numbers.Nodup
  ordered : ∃ level, IsLevel graph.dependencies graph.liveIndices level ∧
    numbers.Pairwise (Earlier level)
  sound : ∀ (position : Nat) (equation : Equation κ), list.equations[position]? = some equation →
    ∀ read ∈ equation.value.symbols,
      (∃ earlier < position, ∃ other, list.equations[earlier]? = some other ∧
        other.symbol = read) ∨ (∃ input ∈ list.inputs, input.symbol = read) ∨
          graph.Dangles equation.value read
  inputs : ∀ symbol, (∃ input ∈ list.inputs, input.symbol = symbol) ↔
    graph.isInput symbol = true ∧ ∃ equation ∈ list.equations, symbol ∈ equation.value.symbols
  declared : ∀ input ∈ list.inputs, input.shape = input.symbol.shape ∧
    graph.inputs.find? input.symbol = some input.categories
  inputsOnce : (list.inputs.map (·.symbol)).Nodup
  inputsOrdered : (list.inputs.map (·.symbol)).Pairwise
    (Grouping.Before (list.equations.flatMap fun equation => equation.value.symbols))

theorem roots_eq_nil {output excluded : CategorySet} :
    graph.roots output excluded = [] ↔ ∀ index, ¬graph.Chosen output excluded index := by
  rw [List.eq_nil_iff_forall_not_mem]
  exact forall_congr' fun index => not_congr mem_roots

def ordered (graph : Graph κ) (needed : List Nat) : List Nat :=
  graph.levels.flatten.filter needed.contains

def listed (graph : Graph κ) (numbers : List Nat) : EquationList κ :=
  let nodes := numbers.filterMap fun index => graph.nodes[index]?
  let read := Grouping.distinct ((nodes.flatMap Node.reads).filter graph.isInput)
  ⟨nodes.map Node.equation, read.filterMap fun symbol =>
    (graph.inputs.find? symbol).map fun categories => ⟨symbol, symbol.shape, categories⟩⟩

theorem extract_eq (graph : Graph κ) (output excluded : CategorySet) :
    graph.extract output excluded =
      (graph.needed output excluded).map fun needed => graph.listed (graph.ordered needed) := by
  unfold extract
  cases graph.needed output excluded <;> rfl

theorem listed_equations (numbers : List Nat) (live : ∀ index ∈ numbers, index ∈ graph.liveIndices) :
    List.Forall₂ (fun index equation => ∃ node, graph.node? index = some node ∧
      node.equation = equation) numbers (graph.listed numbers).equations := by
  simp only [listed]
  induction numbers with
  | nil => exact List.Forall₂.nil
  | cons head tail ih =>
      obtain ⟨node, found⟩ := mem_liveIndices.mp (live head List.mem_cons_self)
      rw [List.filterMap_cons, (node?_eq_some.mp found).1]
      exact List.Forall₂.cons ⟨node, found, rfl⟩
        (ih fun index member => live index (List.mem_cons_of_mem _ member))

theorem flatMap_reads (lawful : graph.Lawful limit) (numbers : List Nat)
    (live : ∀ index ∈ numbers, index ∈ graph.liveIndices) :
    (numbers.filterMap fun index => graph.nodes[index]?).flatMap Node.reads =
      (graph.listed numbers).equations.flatMap fun equation => equation.value.symbols := by
  simp only [listed]
  induction numbers with
  | nil => rfl
  | cons head tail ih =>
      obtain ⟨node, found⟩ := mem_liveIndices.mp (live head List.mem_cons_self)
      rw [List.filterMap_cons, (node?_eq_some.mp found).1]
      simp only [List.flatMap_cons, List.map_cons]
      rw [ih fun index member => live index (List.mem_cons_of_mem _ member),
        (lawful.regular found).reads_eq]
      rfl

theorem listed_inputs (lawful : graph.Lawful limit) (numbers : List Nat)
    (live : ∀ index ∈ numbers, index ∈ graph.liveIndices) :
    (graph.listed numbers).inputs.map (·.symbol) =
      Grouping.distinct (((graph.listed numbers).equations.flatMap fun equation =>
        equation.value.symbols).filter graph.isInput) := by
  rw [← flatMap_reads lawful numbers live]
  simp only [listed]
  have isInput : ∀ symbol ∈ Grouping.distinct (((numbers.filterMap fun index =>
      graph.nodes[index]?).flatMap Node.reads).filter graph.isInput), graph.isInput symbol = true :=
    fun symbol member => (List.mem_filter.mp (Grouping.mem_distinct.mp member)).2
  generalize Grouping.distinct (((numbers.filterMap fun index =>
      graph.nodes[index]?).flatMap Node.reads).filter graph.isInput) = symbols at isInput
  induction symbols with
  | nil => rfl
  | cons head tail ih =>
      obtain ⟨categories, found⟩ := Option.isSome_iff_exists.mp (isInput head List.mem_cons_self)
      rw [List.filterMap_cons, found]
      simp only [Option.map_some, List.map_cons]
      rw [ih fun symbol member => isInput symbol (List.mem_cons_of_mem _ member)]

variable {needed : List Nat} {level : Nat → Nat}

theorem mem_ordered (perm : graph.levels.flatten.Perm graph.liveIndices)
    (closed : graph.Closed needed) {index : Nat} : index ∈ graph.ordered needed ↔ index ∈ needed := by
  rw [ordered, List.mem_filter, List.contains_iff_mem, perm.mem_iff, and_iff_right_iff_imp]
  exact closed.live index

theorem lt_of_level_lt {numbers : List Nat} (ordered : numbers.Pairwise (Earlier level))
    {first second lower upper : Nat} (one : numbers[first]? = some lower)
    (other : numbers[second]? = some upper) (below : level lower < level upper) :
    first < second := by
  obtain ⟨firstBound, rfl⟩ := List.getElem?_eq_some_iff.mp one
  obtain ⟨secondBound, rfl⟩ := List.getElem?_eq_some_iff.mp other
  rcases Nat.lt_trichotomy first second with before | same | after
  · exact before
  · subst same
    exact absurd below (lt_irrefl _)
  · have earlier := List.pairwise_iff_getElem.mp ordered second first secondBound firstBound after
    rcases earlier with less | ⟨equal, _⟩
    · exact absurd less (not_lt.mpr below.le)
    · exact absurd equal.symm below.ne

theorem forall₂_position {numbers : List Nat} {equations : List (Equation κ)}
    (aligned : List.Forall₂ (fun index equation => ∃ node, graph.node? index = some node ∧
      node.equation = equation) numbers equations) {position : Nat} {equation : Equation κ}
    (found : equations[position]? = some equation) :
    ∃ index node, numbers[position]? = some index ∧ graph.node? index = some node ∧
      node.equation = equation := by
  obtain ⟨bound, rfl⟩ := List.getElem?_eq_some_iff.mp found
  have before : position < numbers.length := by
    rw [aligned.length_eq]
    exact bound
  obtain ⟨node, live, same⟩ := aligned.get before bound
  exact ⟨_, node, List.getElem?_eq_getElem before, live, same⟩

theorem forall₂_number {numbers : List Nat} {equations : List (Equation κ)}
    (aligned : List.Forall₂ (fun index equation => ∃ node, graph.node? index = some node ∧
      node.equation = equation) numbers equations) {index : Nat} (member : index ∈ numbers) :
    ∃ (position : Nat) (node : Node κ), numbers[position]? = some index ∧
      graph.node? index = some node ∧ equations[position]? = some node.equation := by
  obtain ⟨position, bound, rfl⟩ := List.getElem_of_mem member
  have after : position < equations.length := by
    rw [← aligned.length_eq]
    exact bound
  obtain ⟨node, live, same⟩ := aligned.get bound after
  refine ⟨position, node, List.getElem?_eq_getElem bound, live, ?_⟩
  rw [List.getElem?_eq_getElem after]
  exact congrArg some same.symm

theorem listed_sound (lawful : graph.Lawful limit) (settled : graph.Settled)
    (isLevel : IsLevel graph.dependencies graph.liveIndices level) {numbers : List Nat}
    (live : ∀ index ∈ numbers, index ∈ graph.liveIndices)
    (closed : ∀ index ∈ numbers, ∀ other ∈ graph.dependencies index, other ∈ numbers)
    (ordered : numbers.Pairwise (Earlier level)) {position : Nat} {equation : Equation κ}
    (found : (graph.listed numbers).equations[position]? = some equation) {read : Symbol}
    (member : read ∈ equation.value.symbols) :
    (∃ earlier < position, ∃ other, (graph.listed numbers).equations[earlier]? = some other ∧
      other.symbol = read) ∨ graph.isInput read = true ∨ graph.Dangles equation.value read := by
  have aligned := listed_equations numbers live
  obtain ⟨index, node, place, nodeLive, rfl⟩ := forall₂_position aligned found
  have among : index ∈ numbers := List.mem_of_getElem? place
  have reads : read ∈ node.reads := by
    rw [(lawful.regular nodeLive).reads_eq]
    exact member
  rcases settled node.symbol node (lawful.nodeOf?_symbol nodeLive) read reads with defined | rest
  · obtain ⟨other, defines⟩ := Option.isSome_iff_exists.mp defined
    have depends := (mem_dependencies nodeLive).mpr ⟨read, reads, defines⟩
    obtain ⟨earlier, target, otherPlace, targetLive, listed⟩ :=
      forall₂_number aligned (closed index among other depends)
    refine Or.inl ⟨earlier, ?_, target.equation, listed, ?_⟩
    · exact lt_of_level_lt ordered otherPlace place
        (isLevel.above index (live index among) other depends)
    · exact lawful.symbol_of_definition (liveIndex?_eq_some.mp defines).1 targetLive
  · exact Or.inr rest

theorem extracted_listed (valid : graph.Valid limit) (built : graph.built = true)
    (output excluded : CategorySet) :
    graph.Extracted output excluded
      (graph.ordered (graph.closure (graph.roots output excluded)))
      (graph.listed (graph.ordered (graph.closure (graph.roots output excluded)))) := by
  have closed : graph.Closed (graph.closure (graph.roots output excluded)) :=
    closed_closure_roots output excluded
  obtain ⟨settled, level, perm, sorted, isLevel⟩ := valid.leveled built
  have among : ∀ index, index ∈ graph.ordered (graph.closure (graph.roots output excluded)) ↔
      index ∈ graph.closure (graph.roots output excluded) := fun index => mem_ordered perm closed
  have ordered : (graph.ordered (graph.closure (graph.roots output excluded))).Pairwise
      (Earlier level) := sorted.sublist List.filter_sublist
  have once : (graph.ordered (graph.closure (graph.roots output excluded))).Nodup :=
    (perm.nodup_iff.mpr (nodup_liveIndices graph)).filter _
  have closure : ∀ index, index ∈ graph.ordered (graph.closure (graph.roots output excluded)) ↔
      ∃ root, graph.Chosen output excluded root ∧ ReflTransGen graph.Needs root index := by
    intro index
    rw [among, mem_closure_roots]
    exact exists_congr fun root => and_congr_left fun _ => mem_roots
  generalize graph.ordered (graph.closure (graph.roots output excluded)) = numbers
    at among ordered once closure
  have live : ∀ index ∈ numbers, index ∈ graph.liveIndices :=
    fun index member => closed.live index ((among index).mp member)
  have symbols := listed_inputs valid.toLawful numbers live
  have mem : ∀ symbol, (∃ input ∈ (graph.listed numbers).inputs, input.symbol = symbol) ↔
      graph.isInput symbol = true ∧
        ∃ equation ∈ (graph.listed numbers).equations, symbol ∈ equation.value.symbols := by
    intro symbol
    rw [← List.mem_map, symbols, Grouping.mem_distinct, List.mem_filter, List.mem_flatMap, and_comm]
  constructor
  · exact listed_equations numbers live
  · exact closure
  · exact once
  · exact ⟨level, isLevel, ordered⟩
  · intro position equation found read member
    have inside : ∀ index ∈ numbers, ∀ other ∈ graph.dependencies index, other ∈ numbers :=
      fun index member other depends =>
        (among other).mpr (closed.closed index ((among index).mp member) other depends)
    refine (listed_sound valid.toLawful settled isLevel live inside ordered found member).imp_right
      (Or.imp_left fun input => ?_)
    exact (mem read).mpr ⟨input, equation, List.mem_of_getElem? found, member⟩
  · exact mem
  · intro input member
    obtain ⟨symbol, _, made⟩ := List.mem_filterMap.mp member
    obtain ⟨categories, found, rfl⟩ := Option.map_eq_some_iff.mp made
    exact ⟨rfl, found⟩
  · rw [symbols]
    exact Grouping.nodup_distinct _
  · rw [symbols]
    refine (Grouping.pairwise_distinct _).imp_of_mem ?_
    intro first second _ member before
    exact before.of_filter (List.mem_filter.mp (Grouping.mem_distinct.mp member)).2

theorem extracted_of_ok (valid : graph.Valid limit) {output excluded : CategorySet}
    {list : EquationList κ} (extracted : graph.extract output excluded = .ok list) :
    graph.built = true ∧ ∃ numbers, graph.Extracted output excluded numbers list := by
  rw [extract_eq] at extracted
  cases found : graph.needed output excluded with
  | error reason =>
      rw [found] at extracted
      cases extracted
  | ok needed =>
      rw [found] at extracted
      cases extracted
      obtain ⟨built, _, rfl⟩ := needed_eq_ok.mp found
      exact ⟨built, _, extracted_listed valid built output excluded⟩

/-- Every symbol that is read has its equation before, or is listed as an input, if symbols are read
at places of theirs. -/
theorem Extracted.sound_of_placed {output excluded : CategorySet} {numbers : List Nat}
    {list : EquationList κ} (exact : graph.Extracted output excluded numbers list)
    (placed : graph.Placed) {position : Nat} {equation : Equation κ}
    (found : list.equations[position]? = some equation) {read : Symbol}
    (member : read ∈ equation.value.symbols) :
    (∃ earlier < position, ∃ other, list.equations[earlier]? = some other ∧
      other.symbol = read) ∨ ∃ input ∈ list.inputs, input.symbol = read := by
  rcases exact.sound position equation found read member with earlier | input | ⟨_, outside⟩
  · exact Or.inl earlier
  · exact Or.inr input
  · obtain ⟨_, node, _, live, rfl⟩ := forall₂_position exact.equations found
    obtain ⟨atom, among, named⟩ := Tensor.mem_symbols.mp member
    exact absurd ((placed live).value atom among) (outside atom among named)

theorem Valid.extract_of_chosen (valid : graph.Valid limit) (built : graph.built = true)
    {output excluded : CategorySet} (chosen : ∃ index, graph.Chosen output excluded index) :
    ∃ numbers list, graph.extract output excluded = .ok list ∧
      graph.Extracted output excluded numbers list := by
  rw [extract_eq, needed, built]
  cases found : graph.roots output excluded with
  | nil =>
      obtain ⟨index, chosen⟩ := chosen
      exact absurd chosen (roots_eq_nil.mp found index)
  | cons first rest =>
      refine ⟨graph.ordered (graph.closure (first :: rest)), _, rfl, ?_⟩
      rw [← found]
      exact extracted_listed valid built output excluded

/-- A list is taken out of a built graph unless no equation was chosen, and it is as described. -/
theorem extract_exact {session : Session κ} {simplifier : Simplifier κ}
    (modest : simplifier.Modest) (attainable : Attainable simplifier session)
    (built : session.graph.built = true) (output excluded : CategorySet) :
    (session.graph.extract output excluded = .error (.noMatchingCategory output) ↔
        ∀ index, ¬session.graph.Chosen output excluded index) ∧
      ((∃ index, session.graph.Chosen output excluded index) →
        ∃ numbers list, session.graph.extract output excluded = .ok list ∧
          session.graph.Extracted output excluded numbers list) := by
  refine ⟨?_, (attainable.fit modest).valid.extract_of_chosen built⟩
  rw [← roots_eq_nil, extract_eq, needed, built]
  cases session.graph.roots output excluded <;> simp [Except.map]

theorem extract_exact_outlying : Outlying.built.graph.built = true ∧
    ∃ numbers list, Outlying.built.graph.extract (.only .sensor) .none = .ok list ∧
      Outlying.built.graph.Extracted (.only .sensor) .none numbers list := by
  have built : Outlying.built.graph.built = true := by with_unfolding_all decide
  refine ⟨built, (extract_exact Simplifier.keep_tame.toModest Outlying.attainable_built built _ _).2
    ⟨1, ?_⟩⟩
  exact mem_roots.mp (by with_unfolding_all decide)

/-- A list with an equation that reads a removed symbol where it has no place: the symbol has no
equation before, and is not listed as an input. -/
theorem outlying_unlisted : Attainable Simplifier.keep Outlying.built ∧
    Outlying.built.graph.built = true ∧
      (Outlying.built.graph.extract (.only .sensor) .none).toOption.map (fun list =>
        (list.equations.map fun equation => (equation.symbol, equation.value.symbols),
          list.inputs.map (·.symbol))) = some ([(Outlying.s, [Outlying.m])], []) :=
  ⟨Outlying.attainable_built, by with_unfolding_all decide, by with_unfolding_all decide⟩

end

variable {κ : Type} [Scalar κ] {session : Session κ}

def entryIn (values : Symbol → Option (Tensor κ)) (atom : Atom) : Option (Expr κ) := do
  let value ← values atom.symbol
  (value.entryAt atom.flatIndex).toOption

/-- Stores the value of an equation in which everything that is stored has been put. -/
def execute (values : Symbol → Option (Tensor κ)) (equation : Equation κ) :
    Symbol → Option (Tensor κ) :=
  Function.update values equation.symbol (some (equation.value.substitute (entryIn values)))

def boundInputs (session : Session κ) (symbol : Symbol) : Option (Tensor κ) :=
  if session.graph.isInput symbol then session.graph.store.binding? symbol else none

/-- Values that are those of the inputs, and the answers for the symbols of some equations. -/
def Answers (session : Session κ) (equations : List (Equation κ))
    (values : Symbol → Option (Tensor κ)) : Prop :=
  ∀ symbol, ((∃ equation ∈ equations, equation.symbol = symbol) →
      ∃ value, answer session symbol = .ok value ∧ values symbol = some value) ∧
    ((∀ equation ∈ equations, equation.symbol ≠ symbol) → values symbol = boundInputs session symbol)

theorem entryIn_eq_current {limit : Nat} (valid : session.graph.Valid limit)
    {equations : List (Equation κ)} {values : Symbol → Option (Tensor κ)}
    (answers : Answers session equations values)
    (defined : ∀ equation ∈ equations, session.graph.isDefined equation.symbol = true) {atom : Atom}
    (known : (∃ equation ∈ equations, equation.symbol = atom.symbol) ∨
      session.graph.isInput atom.symbol = true) :
    entryIn values atom = current session atom := by
  rw [entryIn, current]
  by_cases listed : ∃ equation ∈ equations, equation.symbol = atom.symbol
  · obtain ⟨value, answered, stored⟩ := (answers atom.symbol).1 listed
    obtain ⟨equation, member, same⟩ := listed
    have isDefined : session.graph.isDefined atom.symbol = true := same ▸ defined equation member
    obtain ⟨node, found⟩ := isDefined_iff.mp isDefined
    rw [stored, valid.toLawful.noInput found, isDefined, answered]
    rfl
  · have input := known.resolve_left listed
    have absent : ∀ equation ∈ equations, equation.symbol ≠ atom.symbol :=
      fun equation member same => listed ⟨equation, member, same⟩
    rw [(answers atom.symbol).2 absent, boundInputs, input, if_pos rfl, if_pos rfl]

theorem Answers.execute {limit : Nat} (valid : session.graph.Valid limit)
    (acyclic : session.graph.Acyclic) {equations : List (Equation κ)} {equation : Equation κ}
    {values : Symbol → Option (Tensor κ)} (answers : Answers session equations values)
    (defined : ∀ equation ∈ equations, session.graph.isDefined equation.symbol = true)
    {index : Nat} {node : Node κ} (live : session.graph.node? index = some node)
    (same : node.equation = equation)
    (reads : ∀ read ∈ equation.value.symbols,
      (∃ other ∈ equations, other.symbol = read) ∨ session.graph.isInput read = true) :
    Answers session (equations ++ [equation]) (execute values equation) := by
  subst same
  have found := valid.toLawful.nodeOf?_symbol live
  have stored : node.value.substitute (entryIn values) =
      node.value.substitute (current session) := by
    apply Tensor.substitute_congr
    intro atom member
    exact entryIn_eq_current valid answers defined
      (reads atom.symbol (Tensor.mem_symbols.mpr ⟨atom, member, rfl⟩))
  intro symbol
  by_cases here : symbol = node.symbol
  · subst here
    constructor
    · intro _
      refine ⟨_, answer_eq valid found (acyclic.below _), ?_⟩
      rw [← stored]
      exact Function.update_self _ _ _
    · intro absent
      exact absurd rfl (absent node.equation (List.mem_append_right _ (List.mem_singleton_self _)))
  · have kept : Graph.execute values node.equation symbol = values symbol :=
      Function.update_of_ne here _ _
    rw [kept]
    constructor
    · rintro ⟨other, member, rfl⟩
      rcases List.mem_append.mp member with earlier | last
      · exact (answers other.symbol).1 ⟨other, earlier, rfl⟩
      · exact absurd (congrArg Equation.symbol (List.mem_singleton.mp last)) here
    · intro absent
      exact (answers symbol).2 fun other member => absent other (List.mem_append_left _ member)

theorem answers_foldl {limit : Nat} (valid : session.graph.Valid limit)
    (acyclic : session.graph.Acyclic) (rest : List (Equation κ)) {passed : List (Equation κ)}
    {values : Symbol → Option (Tensor κ)} (answers : Answers session passed values)
    (live : ∀ equation ∈ passed ++ rest, ∃ index node, session.graph.node? index = some node ∧
      node.equation = equation)
    (reads : ∀ (position : Nat) (equation : Equation κ), (passed ++ rest)[position]? = some equation →
      ∀ read ∈ equation.value.symbols, (∃ earlier < position, ∃ other,
        (passed ++ rest)[earlier]? = some other ∧ other.symbol = read) ∨
          session.graph.isInput read = true) :
    Answers session (passed ++ rest) (rest.foldl execute values) := by
  induction rest generalizing passed values with
  | nil => simpa using answers
  | cons head tail ih =>
      have place : (passed ++ head :: tail)[passed.length]? = some head := by simp
      obtain ⟨index, node, nodeLive, same⟩ := live head (by simp)
      have next : Answers session (passed ++ [head]) (execute values head) := by
        refine answers.execute valid acyclic ?_ nodeLive same ?_
        · intro equation member
          obtain ⟨_, other, otherLive, rfl⟩ := live equation (List.mem_append_left _ member)
          exact isDefined_iff.mpr ⟨other, valid.toLawful.nodeOf?_symbol otherLive⟩
        · intro read member
          refine (reads passed.length head place read member).imp_left ?_
          rintro ⟨earlier, before, other, found, named⟩
          rw [List.getElem?_append_left before] at found
          exact ⟨other, List.mem_of_getElem? found, named⟩
      rw [List.append_cons] at live reads ⊢
      exact ih next live reads

/-- Whatever list is taken out of a graph, running it from the bindings of the inputs stores for
each of its equations the value that a query answers. -/
theorem run_extracted {simplifier : Simplifier κ} (tame : simplifier.Tame)
    (reachable : Reachable simplifier session) {output excluded : CategorySet}
    {list : EquationList κ} (extracted : session.graph.extract output excluded = .ok list) :
    ∀ equation ∈ list.equations, ∃ value, answer session equation.symbol = .ok value ∧
      list.equations.foldl execute (boundInputs session) equation.symbol = some value := by
  have valid := (reachable.fit tame).valid
  obtain ⟨built, numbers, exact⟩ := extracted_of_ok valid extracted
  obtain ⟨_, level, _, _, isLevel⟩ := valid.leveled built
  have start : Answers session [] (boundInputs session) :=
    fun _ => ⟨nofun, fun _ => rfl⟩
  have final := answers_foldl valid (isLevel.acyclic valid.toLawful) list.equations start
    (fun equation member => by
      obtain ⟨position, found⟩ := List.mem_iff_getElem?.mp member
      obtain ⟨index, node, _, live, same⟩ := forall₂_position exact.equations found
      exact ⟨index, node, live, same⟩)
    (fun position equation found read member => by
      refine (exact.sound_of_placed (reachable.placed tame) found member).imp_right ?_
      intro among
      exact ((exact.inputs read).mp among).1)
  intro equation member
  exact (final equation.symbol).1 ⟨equation, member, rfl⟩

theorem run_extracted_chained : ∃ list,
    Chained.built.graph.extract (.only .state) .none = .ok list ∧
      ∀ equation ∈ list.equations, ∃ value,
        answer Chained.built equation.symbol = .ok value ∧
          list.equations.foldl execute (boundInputs Chained.built) equation.symbol = some value := by
  have found : (Chained.built.graph.extract (.only .state) .none).toOption.isSome = true := by
    with_unfolding_all decide
  cases extracted : Chained.built.graph.extract (.only .state) .none with
  | error reason =>
      rw [extracted] at found
      cases found
  | ok list =>
      exact ⟨list, rfl, run_extracted Simplifier.keep_tame Chained.reachable_built extracted⟩

end Mechanism.Graph
