import Mathlib.Data.List.Perm.Basic
import Mathlib.Logic.Relation
import Mathlib.Order.WellFounded
import Mechanism.Proofs.Graph.Lawful

/-!
Which defined symbols the definition of a symbol reads. A graph is bound when its equations read
nothing but inputs and defined symbols, and acyclic when this relation is well-founded.

Round by round the levels of a graph are filled with the equations whose dependencies all stand in
earlier ones, so an equation stands one level above the highest one that it depends on; and there
are levels exactly when the graph is acyclic.
-/

open Relation (TransGen)

namespace Mechanism.Graph

variable {κ : Type} [Scalar κ] {limit : Nat} {graph : Graph κ}

/-- The live definition of the second symbol reads the first one, which is defined as well. -/
def Reads (graph : Graph κ) (read reader : Symbol) : Prop :=
  ∃ node, graph.nodeOf? reader = some node ∧ read ∈ node.reads ∧ graph.isDefined read = true

def Acyclic (graph : Graph κ) : Prop := WellFounded graph.Reads

def Bound (graph : Graph κ) : Prop :=
  ∀ symbol node, graph.nodeOf? symbol = some node → ∀ read ∈ node.reads,
    graph.isDefined read = true ∨ graph.isInput read = true

/-- The symbol was removed, and the value reads it only where it has no place. -/
def Dangles (graph : Graph κ) (value : Tensor κ) (read : Symbol) : Prop :=
  (∃ target, graph.aliases.find? read = some target) ∧
    ∀ atom ∈ value.atoms, atom.symbol = read → ¬atom.Within

/-- Whatever is read has a value, or dangles. -/
def Settled (graph : Graph κ) : Prop :=
  ∀ symbol node, graph.nodeOf? symbol = some node → ∀ read ∈ node.reads,
    graph.isDefined read = true ∨ graph.isInput read = true ∨ graph.Dangles node.value read

theorem Bound.settled (bound : graph.Bound) : graph.Settled :=
  fun symbol node found read member => (bound symbol node found read member).imp_right Or.inl

theorem Settled.bound (settled : graph.Settled) (lawful : graph.Lawful limit)
    (placed : graph.Placed) : graph.Bound := by
  intro symbol node found read member
  rcases settled symbol node found read member with defined | input | ⟨_, outside⟩
  · exact Or.inl defined
  · exact Or.inr input
  · rw [(lawful.regular_of_nodeOf? found).reads_eq] at member
    obtain ⟨atom, among, named⟩ := Tensor.mem_symbols.mp member
    exact absurd ((placed.of_nodeOf? found).value atom among) (outside atom among named)

theorem unbound?_eq_none (lawful : graph.Lawful limit) : graph.unbound? = none ↔ graph.Bound := by
  simp only [unbound?, List.findSome?_eq_none_iff, Option.map_eq_none_iff, List.find?_eq_none,
    Bool.not_eq_true', Bool.not_eq_false, Bool.or_eq_true, mem_liveNodes]
  constructor
  · intro all symbol node found read member
    obtain ⟨index, live, _⟩ := lawful.nodeOf?_iff.mp found
    exact all node ⟨index, live⟩ read member
  · rintro bound node ⟨index, live⟩ read member
    exact bound node.symbol node (lawful.nodeOf?_symbol live) read member

theorem unbound?_eq_some (lawful : graph.Lawful limit) {error : GraphError κ}
    (unbound : graph.unbound? = some error) :
    ∃ reader node read, graph.nodeOf? reader = some node ∧ read ∈ node.reads ∧
      graph.isDefined read = false ∧ graph.isInput read = false ∧
        error = .unboundSymbol read.name node.equation.name := by
  obtain ⟨node, liveNode, read, found, rfl⟩ :
      ∃ node ∈ graph.liveNodes, ∃ read, (node.reads.find? fun symbol =>
        !(graph.isDefined symbol || graph.isInput symbol)) = some read ∧
          .unboundSymbol read.name node.equation.name = error := by
    obtain ⟨node, member, same⟩ := List.exists_of_findSome?_eq_some unbound
    exact ⟨node, member, Option.map_eq_some_iff.mp same⟩
  obtain ⟨index, live⟩ := mem_liveNodes.mp liveNode
  have unknown := List.find?_some found
  rw [Bool.not_eq_true', Bool.or_eq_false_iff] at unknown
  exact ⟨node.symbol, node, read, lawful.nodeOf?_symbol live, List.mem_of_find?_eq_some found,
    unknown.1, unknown.2, rfl⟩

theorem mem_dependencies {index other : Nat} {node : Node κ}
    (live : graph.node? index = some node) :
    other ∈ graph.dependencies index ↔
      ∃ read ∈ node.reads, graph.liveIndex? read = some other := by
  rw [dependencies, (node?_eq_some.mp live).1]
  simp

theorem dependencies_live {index other : Nat} (member : other ∈ graph.dependencies index) :
    other ∈ graph.liveIndices := by
  unfold dependencies at member
  split at member
  · cases member
  · obtain ⟨read, _, found⟩ := List.mem_filterMap.mp member
    exact mem_liveIndices.mpr (liveIndex?_eq_some.mp found).2

theorem mem_dependencies_iff (lawful : graph.Lawful limit) {index other : Nat} {node target : Node κ}
    (live : graph.node? index = some node) (targetLive : graph.node? other = some target) :
    other ∈ graph.dependencies index ↔ graph.Reads target.symbol node.symbol := by
  rw [mem_dependencies live]
  constructor
  · rintro ⟨read, member, found⟩
    have symbol : target.symbol = read :=
      lawful.symbol_of_definition (liveIndex?_eq_some.mp found).1 targetLive
    refine ⟨node, lawful.nodeOf?_symbol live, by rwa [symbol], ?_⟩
    rw [symbol, isDefined, found]
    rfl
  · rintro ⟨reader, found, member, _⟩
    rw [lawful.nodeOf?_symbol live, Option.some.injEq] at found
    subst found
    exact ⟨target.symbol, member, lawful.liveIndex?_eq targetLive⟩

/-- A lawful graph whose equations can be evaluated one after the other. -/
structure Orderly (limit : Nat) (graph : Graph κ) : Prop extends Lawful limit graph where
  bound : graph.Bound
  acyclic : graph.Acyclic

theorem Reads.isDefined_reader {read reader : Symbol} (reads : graph.Reads read reader) :
    graph.isDefined reader = true := by
  obtain ⟨node, found, _⟩ := reads
  exact isDefined_iff.mpr ⟨node, found⟩

theorem Acyclic.of_reads {other : Graph κ} (acyclic : graph.Acyclic)
    (reads : ∀ read reader, other.Reads read reader → TransGen graph.Reads read reader) :
    other.Acyclic :=
  Subrelation.wf (fun {read reader} step => reads read reader step) acyclic.transGen

theorem Acyclic.not_reads_self (acyclic : graph.Acyclic) {symbol : Symbol} {node : Node κ}
    (found : graph.nodeOf? symbol = some node) : symbol ∉ node.reads := by
  intro member
  have loop : graph.Reads symbol symbol := ⟨node, found, member, isDefined_iff.mpr ⟨node, found⟩⟩
  exact acyclic.asymmetric symbol symbol loop loop

/-- Each item stands above all that it depends on, and no higher than it must. -/
structure IsLevel (dependencies : Nat → List Nat) (items : List Nat) (level : Nat → Nat) : Prop where
  above : ∀ index ∈ items, ∀ other ∈ dependencies index, level other < level index
  tight : ∀ index ∈ items, level index = 0 ∨
    ∃ other ∈ dependencies index, level index = level other + 1

def Earlier (level : Nat → Nat) (first second : Nat) : Prop :=
  level first < level second ∨ level first = level second ∧ first < second

/-- What holds between two rounds: some levels are full, and some items remain. -/
structure Filling (dependencies : Nat → List Nat) (items : List Nat) (levels : List (List Nat))
    (remaining : List Nat) (level : Nat → Nat) : Prop where
  perm : (levels.flatten ++ remaining).Perm items
  ordered : levels.flatten.Pairwise (Earlier level)
  below : ∀ index ∈ levels.flatten, level index < levels.length
  closed : ∀ index ∈ levels.flatten, ∀ other ∈ dependencies index, other ∈ levels.flatten
  isLevel : IsLevel dependencies levels.flatten level
  waiting : ∀ index ∈ remaining, levels = [] ∨ ∃ other ∈ dependencies index,
    other ∈ remaining ∨ level other + 1 = levels.length
  sorted : remaining.Pairwise (· < ·)

section

variable {dependencies : Nat → List Nat} {items remaining : List Nat} {levels : List (List Nat)}
  {level : Nat → Nat}

def ready (dependencies : Nat → List Nat) (remaining : List Nat) : List Nat :=
  remaining.filter fun index => !(dependencies index).any remaining.contains

theorem mem_ready {index : Nat} :
    index ∈ ready dependencies remaining ↔
      index ∈ remaining ∧ ∀ other ∈ dependencies index, other ∉ remaining := by
  simp [ready]

theorem levelsWith_succ (dependencies : Nat → List Nat) (fuel : Nat) (remaining : List Nat)
    (levels : List (List Nat)) :
    levelsWith dependencies (fuel + 1) remaining levels =
      if (ready dependencies remaining).isEmpty then (levels, remaining)
      else levelsWith dependencies fuel
        (remaining.filter fun index => !(ready dependencies remaining).contains index)
        (levels ++ [ready dependencies remaining]) := rfl

/-- The level of an item once the given ones stand at a height. -/
def raise (level : Nat → Nat) (height : Nat) (raised : List Nat) (index : Nat) : Nat :=
  if index ∈ raised then height else level index

def stuck (dependencies : Nat → List Nat) (remaining : List Nat) : List Nat :=
  remaining.filter fun index => !(ready dependencies remaining).contains index

theorem mem_stuck {index : Nat} :
    index ∈ stuck dependencies remaining ↔
      index ∈ remaining ∧ index ∉ ready dependencies remaining := by
  simp [stuck]

theorem ready_append_stuck (dependencies : Nat → List Nat) (remaining : List Nat) :
    (ready dependencies remaining ++ stuck dependencies remaining).Perm remaining := by
  have split := List.filter_append_perm (fun index => (ready dependencies remaining).contains index)
    remaining
  have same : (remaining.filter fun index => (ready dependencies remaining).contains index) =
      ready dependencies remaining := by
    apply List.filter_congr
    intro index member
    rw [Bool.eq_iff_iff, List.contains_iff_mem, mem_ready]
    simp [member]
  rwa [same] at split

theorem stuck_waiting {index : Nat} (member : index ∈ stuck dependencies remaining)
    (level : Nat → Nat) (height : Nat) :
    ∃ other ∈ dependencies index, other ∈ stuck dependencies remaining ∨
      raise level height (ready dependencies remaining) other = height := by
  obtain ⟨remains, notReady⟩ := mem_stuck.mp member
  have held : ∃ other ∈ dependencies index, other ∈ remaining := by
    by_contra free
    exact notReady (mem_ready.mpr
      ⟨remains, fun other depends left => free ⟨other, depends, left⟩⟩)
  obtain ⟨other, depends, left⟩ := held
  refine ⟨other, depends, ?_⟩
  by_cases now : other ∈ ready dependencies remaining
  · exact Or.inr (if_pos now)
  · exact Or.inl (mem_stuck.mpr ⟨left, now⟩)

namespace Filling

variable (filling : Filling dependencies items levels remaining level)

include filling

theorem not_ready (unique : items.Nodup) {index : Nat} (full : index ∈ levels.flatten) :
    index ∉ ready dependencies remaining := by
  have disjoint := (List.nodup_append.mp (filling.perm.nodup_iff.mpr unique)).2.2
  intro member
  exact disjoint index full index (mem_ready.mp member).1 rfl

theorem full_of_ready (inside : ∀ index, ∀ other ∈ dependencies index, other ∈ items)
    {index other : Nat} (member : index ∈ ready dependencies remaining)
    (depends : other ∈ dependencies index) : other ∈ levels.flatten := by
  have among := filling.perm.mem_iff.mpr (inside index other depends)
  rcases List.mem_append.mp among with full | remains
  · exact full
  · exact absurd remains ((mem_ready.mp member).2 other depends)

theorem raise_full (unique : items.Nodup) {index : Nat} (full : index ∈ levels.flatten) :
    raise level levels.length (ready dependencies remaining) index = level index :=
  if_neg (filling.not_ready unique full)

theorem round_ordered (unique : items.Nodup) :
    (levels.flatten ++ ready dependencies remaining).Pairwise
      (Earlier (raise level levels.length (ready dependencies remaining))) := by
  refine List.pairwise_append.mpr ⟨?_, ?_, ?_⟩
  · refine filling.ordered.imp_of_mem ?_
    intro first second one other earlier
    rwa [Earlier, filling.raise_full unique one, filling.raise_full unique other]
  · have sorted := filling.sorted.sublist (List.filter_sublist (p := fun index =>
      !(dependencies index).any remaining.contains))
    refine sorted.imp_of_mem ?_
    intro first second one other less
    exact Or.inr ⟨(if_pos one).trans (if_pos other).symm, less⟩
  · intro first full second new
    have height : raise level levels.length (ready dependencies remaining) second = levels.length :=
      if_pos new
    rw [Earlier, filling.raise_full unique full, height]
    exact Or.inl (filling.below first full)

theorem round_isLevel (unique : items.Nodup)
    (inside : ∀ index, ∀ other ∈ dependencies index, other ∈ items) :
    IsLevel dependencies (levels.flatten ++ ready dependencies remaining)
      (raise level levels.length (ready dependencies remaining)) where
  above := by
    intro index member other depends
    rcases List.mem_append.mp member with full | new
    · rw [filling.raise_full unique full,
        filling.raise_full unique (filling.closed index full other depends)]
      exact filling.isLevel.above index full other depends
    · have before := filling.full_of_ready inside new depends
      rw [filling.raise_full unique before, raise, if_pos new]
      exact filling.below other before
  tight := by
    intro index member
    rcases List.mem_append.mp member with full | new
    · rw [filling.raise_full unique full]
      rcases filling.isLevel.tight index full with zero | ⟨other, depends, next⟩
      · exact Or.inl zero
      · refine Or.inr ⟨other, depends, ?_⟩
        rwa [filling.raise_full unique (filling.closed index full other depends)]
    · rw [raise, if_pos new]
      rcases filling.waiting index (mem_ready.mp new).1 with first | ⟨other, depends, last⟩
      · exact Or.inl (by rw [first, List.length_nil])
      · refine Or.inr ⟨other, depends, ?_⟩
        rw [filling.raise_full unique (filling.full_of_ready inside new depends)]
        rcases last with remains | next
        · exact absurd remains ((mem_ready.mp new).2 other depends)
        · exact next.symm

theorem round (unique : items.Nodup)
    (inside : ∀ index, ∀ other ∈ dependencies index, other ∈ items) :
    Filling dependencies items (levels ++ [ready dependencies remaining])
      (stuck dependencies remaining)
      (raise level levels.length (ready dependencies remaining)) := by
  have flat : (levels ++ [ready dependencies remaining]).flatten =
      levels.flatten ++ ready dependencies remaining := by
    simp
  have length : (levels ++ [ready dependencies remaining]).length = levels.length + 1 := by
    simp
  constructor
  · rw [flat, List.append_assoc]
    exact ((ready_append_stuck _ _).append_left _).trans filling.perm
  · rw [flat]
    exact filling.round_ordered unique
  · intro index member
    rw [flat] at member
    rw [length]
    rcases List.mem_append.mp member with full | new
    · rw [filling.raise_full unique full]
      have bound := filling.below index full
      omega
    · rw [raise, if_pos new]
      omega
  · intro index member other depends
    rw [flat] at member ⊢
    rcases List.mem_append.mp member with full | new
    · exact List.mem_append_left _ (filling.closed index full other depends)
    · exact List.mem_append_left _ (filling.full_of_ready inside new depends)
  · rw [flat]
    exact filling.round_isLevel unique inside
  · intro index member
    obtain ⟨other, depends, last⟩ := stuck_waiting member level levels.length
    refine Or.inr ⟨other, depends, last.imp_right fun next => ?_⟩
    rw [next, length]
  · exact filling.sorted.sublist List.filter_sublist

end Filling

theorem levelsWith_spec (fuel : Nat) (unique : items.Nodup)
    (inside : ∀ index, ∀ other ∈ dependencies index, other ∈ items)
    (filling : Filling dependencies items levels remaining level) :
    ∃ final, Filling dependencies items (levelsWith dependencies fuel remaining levels).1
      (levelsWith dependencies fuel remaining levels).2 final := by
  induction fuel generalizing levels remaining level with
  | zero => exact ⟨level, filling⟩
  | succ fuel ih =>
      rw [levelsWith_succ]
      split
      · exact ⟨level, filling⟩
      · exact ih (filling.round unique inside)

theorem levelsWith_complete {fuel : Nat} (enough : remaining.length ≤ fuel)
    (progress : ∀ some : List Nat, (∀ index ∈ some, index ∈ remaining) → some ≠ [] →
      ready dependencies some ≠ []) :
    (levelsWith dependencies fuel remaining levels).2 = [] := by
  induction fuel generalizing levels remaining with
  | zero => exact List.length_eq_zero_iff.mp (Nat.le_zero.mp enough)
  | succ fuel ih =>
      rw [levelsWith_succ]
      split
      · rename_i none
        by_contra nonempty
        exact progress remaining (fun _ member => member) nonempty (List.isEmpty_iff.mp none)
      · rename_i some
        have length := (ready_append_stuck dependencies remaining).length_eq
        have found : 0 < (ready dependencies remaining).length :=
          List.length_pos_iff.mpr (by simpa using some)
        rw [List.length_append] at length
        have shorter : (stuck dependencies remaining).length ≤ fuel := by omega
        refine ih shorter ?_
        intro others within nonempty
        exact progress others (fun index member => (mem_stuck.mp (within index member)).1) nonempty

end

variable {levels : List (List Nat)}

theorem findLevels_eq_ok :
    graph.findLevels = .ok levels ↔
      levelsWith graph.dependencies graph.liveIndices.length graph.liveIndices [] = (levels, []) := by
  unfold findLevels
  simp only
  split
  · rename_i found same
    rw [same]
    simp
  · rename_i found left nonempty same
    rw [same]
    simpa using fun _ => nonempty

theorem filling_start (graph : Graph κ) :
    Filling graph.dependencies graph.liveIndices [] graph.liveIndices fun _ => 0 := by
  constructor
  · exact List.Perm.refl _
  · exact List.Pairwise.nil
  · simp
  · simp
  · exact ⟨by simp, by simp⟩
  · intro index _
    exact Or.inl rfl
  · exact pairwise_liveIndices graph

theorem findLevels_ordered (found : graph.findLevels = .ok levels) :
    ∃ level, levels.flatten.Perm graph.liveIndices ∧ levels.flatten.Pairwise (Earlier level) ∧
      IsLevel graph.dependencies graph.liveIndices level := by
  obtain ⟨level, filling⟩ := levelsWith_spec graph.liveIndices.length
    (nodup_liveIndices graph) (fun _ _ => dependencies_live) (filling_start graph)
  rw [findLevels_eq_ok.mp found] at filling
  have perm : levels.flatten.Perm graph.liveIndices := by simpa using filling.perm
  refine ⟨level, perm, filling.ordered, ?_, ?_⟩
  · intro index live
    exact filling.isLevel.above index (perm.mem_iff.mpr live)
  · intro index live
    exact filling.isLevel.tight index (perm.mem_iff.mpr live)

theorem exists_ready (lawful : graph.Lawful limit) (acyclic : graph.Acyclic) {some : List Nat}
    (live : ∀ index ∈ some, index ∈ graph.liveIndices) (nonempty : some ≠ []) :
    ready graph.dependencies some ≠ [] := by
  obtain ⟨first, among⟩ := List.exists_mem_of_ne_nil some nonempty
  obtain ⟨node, found⟩ := mem_liveIndices.mp (live first among)
  obtain ⟨least, ⟨index, member, named⟩, minimal⟩ := acyclic.has_min
    {symbol | ∃ index ∈ some, graph.symbolAt? index = .some symbol}
    ⟨node.symbol, first, among, symbolAt?_of_node? found⟩
  obtain ⟨reader, readerLive⟩ := mem_liveIndices.mp (live index member)
  rw [symbolAt?_of_node? readerLive, Option.some.injEq] at named
  subst named
  apply List.ne_nil_of_mem (a := index)
  rw [mem_ready]
  refine ⟨member, ?_⟩
  intro other depends left
  obtain ⟨target, targetLive⟩ := mem_liveIndices.mp (live other left)
  exact minimal target.symbol ⟨other, left, symbolAt?_of_node? targetLive⟩
    ((mem_dependencies_iff lawful readerLive targetLive).mp depends)

theorem exists_findLevels (lawful : graph.Lawful limit) (acyclic : graph.Acyclic) :
    ∃ levels, graph.findLevels = .ok levels := by
  refine ⟨(levelsWith graph.dependencies graph.liveIndices.length graph.liveIndices []).1, ?_⟩
  rw [findLevels_eq_ok]
  have complete : (levelsWith graph.dependencies graph.liveIndices.length graph.liveIndices []).2 =
      [] := levelsWith_complete (le_refl graph.liveIndices.length)
    fun some within nonempty => exists_ready lawful acyclic within nonempty
  rw [← complete]

theorem IsLevel.acyclic (lawful : graph.Lawful limit) {level : Nat → Nat}
    (isLevel : IsLevel graph.dependencies graph.liveIndices level) : graph.Acyclic := by
  apply Subrelation.wf (r := InvImage (· < ·) fun symbol => level ((graph.liveIndex? symbol).getD 0))
  · intro read reader reads
    have defined := reads.isDefined_reader
    obtain ⟨node, found⟩ := isDefined_iff.mp defined
    obtain ⟨index, live, rfl⟩ := lawful.nodeOf?_iff.mp found
    have readDefined : graph.isDefined read = true := by
      obtain ⟨_, _, _, defined⟩ := reads
      exact defined
    obtain ⟨target, targetFound⟩ := isDefined_iff.mp readDefined
    obtain ⟨other, targetLive, rfl⟩ := lawful.nodeOf?_iff.mp targetFound
    have depends := (mem_dependencies_iff lawful live targetLive).mpr reads
    change level _ < level _
    rw [lawful.liveIndex?_eq live, lawful.liveIndex?_eq targetLive]
    exact isLevel.above index (mem_liveIndices.mpr ⟨node, live⟩) other depends
  · exact InvImage.wf _ wellFounded_lt

end Mechanism.Graph
