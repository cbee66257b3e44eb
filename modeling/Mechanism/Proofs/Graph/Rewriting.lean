import Mechanism.Proofs.Graph.Levels
import Mechanism.Proofs.Graph.Unfolding
import Mechanism.Proofs.Simplifier

/-!
Rewriting the values of a graph. One definition at a time may get another value; simplification
and the folding of equal definitions work in this way.
-/

open Relation (TransGen)

namespace Mechanism.Graph

variable {κ : Type} [Scalar κ] {limit more : Nat} {graph : Graph κ}

/-- The second graph can be evaluated as well as the first one, from which it differs in its nodes
only, and it defines the same old symbols. -/
structure Rewritten (limit more : Nat) (before after : Graph κ) : Prop where
  le : limit ≤ more
  orderly : after.Orderly more
  placed : before.simplifier.Tame → before.Placed → after.Placed
  defined : ∀ symbol, symbol.number < limit → after.isDefined symbol = before.isDefined symbol
  inputs : after.inputs = before.inputs
  aliases : after.aliases = before.aliases
  store : after.store = before.store
  settings : after.settings = before.settings
  simplifier : after.simplifier = before.simplifier

theorem Rewritten.refl (orderly : graph.Orderly limit) : Rewritten limit limit graph graph :=
  ⟨le_refl limit, orderly, fun _ => id, fun _ _ => rfl, rfl, rfl, rfl, rfl, rfl⟩

theorem Rewritten.trans {middle : Nat} {first second third : Graph κ}
    (left : Rewritten limit middle first second) (right : Rewritten limit more second third) :
    Rewritten limit more first third where
  le := right.le
  orderly := right.orderly
  placed := fun tame placed => right.placed (left.simplifier ▸ tame) (left.placed tame placed)
  defined := by
    intro symbol old
    rw [right.defined symbol old, left.defined symbol old]
  inputs := right.inputs.trans left.inputs
  aliases := right.aliases.trans left.aliases
  store := right.store.trans left.store
  settings := right.settings.trans left.settings
  simplifier := right.simplifier.trans left.simplifier

theorem Rewritten.weaken {middle : Nat} {before after : Graph κ}
    (rewritten : Rewritten middle more before after) (le : limit ≤ middle) :
    Rewritten limit more before after where
  le := le.trans rewritten.le
  orderly := rewritten.orderly
  placed := rewritten.placed
  defined := fun symbol old => rewritten.defined symbol (old.trans_le le)
  inputs := rewritten.inputs
  aliases := rewritten.aliases
  store := rewritten.store
  settings := rewritten.settings
  simplifier := rewritten.simplifier

variable {index : Nat} {node : Node κ} {value : Tensor κ}

theorem Lawful.reads_setValue (lawful : graph.Lawful limit) (live : graph.node? index = some node)
    {read reader : Symbol} :
    (graph.setValue index value).Reads read reader ↔
      if node.symbol = reader then read ∈ value.symbols ∧ graph.isDefined read = true
      else graph.Reads read reader := by
  simp only [Reads, lawful.nodeOf?_setValue live, lawful.isDefined_setValue live]
  split
  · simp
  · rfl

theorem Lawful.content?_setValue (lawful : graph.Lawful limit)
    (live : graph.node? index = some node) (symbol : Symbol) :
    (graph.setValue index value).content? symbol =
      if node.symbol = symbol then some value else graph.content? symbol := by
  unfold content?
  rw [lawful.nodeOf?_setValue live]
  by_cases here : node.symbol = symbol
  · rw [if_pos here, if_pos here]
    rfl
  · rw [if_neg here, if_neg here]
    rfl

theorem Lawful.content?_live (lawful : graph.Lawful limit) (live : graph.node? index = some node) :
    graph.content? node.symbol = some node.value := by
  rw [content?, lawful.nodeOf?_symbol live]

/-- A value of the same shape that reads bound symbols and closes no cycle may take the place of
another one. -/
theorem Orderly.rewritten_setValue (orderly : graph.Orderly limit)
    (live : graph.node? index = some node) (shape : value.shape = node.value.shape)
    (issued : value.Issued limit) (placed : graph.simplifier.Tame → graph.Placed → value.Placed)
    (bound : ∀ read ∈ value.symbols, graph.isDefined read = true ∨ graph.isInput read = true)
    (acyclic : (graph.setValue index value).Acyclic) :
    Rewritten limit limit graph (graph.setValue index value) := by
  refine ⟨le_refl limit, ⟨orderly.toLawful.setValue live shape issued, ?_, acyclic⟩,
    fun tame before => before.setValue (placed tame before),
    fun symbol _ => orderly.toLawful.isDefined_setValue live value symbol, rfl, rfl, rfl, rfl, rfl⟩
  intro symbol reader found read among
  rw [orderly.toLawful.nodeOf?_setValue live] at found
  rw [orderly.toLawful.isDefined_setValue live]
  split at found
  · cases found
    exact bound read among
  · exact orderly.bound symbol reader found read among

theorem Orderly.rewritten_of_subset (orderly : graph.Orderly limit)
    (live : graph.node? index = some node) (shape : value.shape = node.value.shape)
    (issued : value.Issued limit) (placed : graph.simplifier.Tame → graph.Placed → value.Placed)
    (subset : ∀ read ∈ value.symbols, read ∈ node.reads) :
    Rewritten limit limit graph (graph.setValue index value) := by
  have found := orderly.toLawful.nodeOf?_symbol live
  apply orderly.rewritten_setValue live shape issued placed
  · intro read member
    exact orderly.bound _ node found read (subset read member)
  · apply orderly.acyclic.of_reads
    intro read reader reads
    rw [orderly.toLawful.reads_setValue live] at reads
    split at reads
    · rename_i here
      subst here
      exact TransGen.single ⟨node, found, subset read reads.1, reads.2⟩
    · exact TransGen.single reads

theorem Lawful.refines_setValue [Exact κ] (lawful : graph.Lawful limit) (kept : Symbol → Prop)
    (live : graph.node? index = some node)
    (keeps : ∀ (inputs : Symbol → Nat → ℝ) environment,
      (graph.setValue index value).Solves inputs environment → ∀ position number,
        node.value.MeansAt environment position number → value.MeansAt environment position number) :
    Refines kept graph (graph.setValue index value) := by
  apply Refines.of_solves
  intro inputs environment solves
  refine ⟨solves.input, ?_⟩
  intro symbol position number tensor noInput found means
  by_cases here : node.symbol = symbol
  · subst here
    rw [lawful.content?_live live, Option.some.injEq] at found
    subst found
    refine solves.content noInput ?_ (keeps inputs environment solves position number means)
    rw [lawful.content?_setValue live, if_pos rfl]
  · refine solves.content noInput ?_ means
    rw [lawful.content?_setValue live, if_neg here, found]

theorem simplifyOne_rewritten (orderly : graph.Orderly limit) (modest : graph.simplifier.Modest)
    (failures index : Nat) : Rewritten limit limit graph (simplifyOne (graph, failures) index).1 := by
  unfold simplifyOne
  simp only
  split
  · exact Rewritten.refl orderly
  · rename_i node live
    split
    · rename_i value simplified
      have nodeRegular := orderly.toLawful.regular live
      have subset := modest.symbols_onTensor simplified
      apply orderly.rewritten_of_subset live (Simplifier.onTensor_eq_ok simplified).1
        (modest.issued_onTensor nodeRegular.value simplified)
        (fun tame placed => tame.placed_onTensor (placed live).value simplified)
      rwa [nodeRegular.reads_eq]
    · exact Rewritten.refl orderly

theorem simplifyOne_refines [Exact κ] (orderly : graph.Orderly limit)
    (preserves : graph.simplifier.Preserves) (kept : Symbol → Prop) (failures index : Nat) :
    Refines kept graph (simplifyOne (graph, failures) index).1 := by
  unfold simplifyOne
  simp only
  split
  · exact Refines.refl kept graph
  · rename_i node live
    split
    · rename_i value simplified
      apply orderly.toLawful.refines_setValue kept live
      intro _ environment _ position number means
      exact preserves.onTensor simplified means
    · exact Refines.refl kept graph

theorem foldl_simplifyOne (indices : List Nat) {graph : Graph κ} (orderly : graph.Orderly limit)
    (modest : graph.simplifier.Modest) (failures : Nat) :
    Rewritten limit limit graph (indices.foldl simplifyOne (graph, failures)).1 := by
  induction indices generalizing graph failures with
  | nil => exact Rewritten.refl orderly
  | cons head tail ih =>
      have first := simplifyOne_rewritten orderly modest failures head
      rw [List.foldl_cons]
      rcases same : simplifyOne (graph, failures) head with ⟨later, count⟩
      rw [same] at first
      exact first.trans (ih first.orderly (first.simplifier ▸ modest) count)

theorem foldl_simplifyOne_refines [Exact κ] (indices : List Nat) {graph : Graph κ}
    (orderly : graph.Orderly limit) (modest : graph.simplifier.Modest)
    (preserves : graph.simplifier.Preserves) (kept : Symbol → Prop) (failures : Nat) :
    Refines kept graph (indices.foldl simplifyOne (graph, failures)).1 := by
  induction indices generalizing graph failures with
  | nil => exact Refines.refl kept graph
  | cons head tail ih =>
      have first := simplifyOne_rewritten orderly modest failures head
      have refines := simplifyOne_refines orderly preserves kept failures head
      rw [List.foldl_cons]
      rcases same : simplifyOne (graph, failures) head with ⟨later, count⟩
      rw [same] at first refines
      exact refines.trans (ih first.orderly (first.simplifier ▸ modest)
        (first.simplifier ▸ preserves) count)

theorem simplifyValues_rewritten (orderly : graph.Orderly limit) (modest : graph.simplifier.Modest) :
    Rewritten limit limit graph graph.simplifyValues.1 :=
  foldl_simplifyOne graph.liveIndices orderly modest 0

theorem simplifyValues_refines [Exact κ] (orderly : graph.Orderly limit)
    (modest : graph.simplifier.Modest) (preserves : graph.simplifier.Preserves)
    (kept : Symbol → Prop) : Refines kept graph graph.simplifyValues.1 :=
  foldl_simplifyOne_refines graph.liveIndices orderly modest preserves kept 0

/-- What has been seen are the values of live equations that are not to be visited any more. -/
def SeenBefore (graph : Graph κ) (seen : List (Tensor κ × Symbol)) (remaining : List Nat) : Prop :=
  ∀ entry ∈ seen, ∃ index node, graph.node? index = some node ∧ node.symbol = entry.2 ∧
    node.value = entry.1 ∧ index ∉ remaining

theorem acyclic_foldInto (orderly : graph.Orderly limit) {first : Nat} {other : Node κ}
    (live : graph.node? index = some node) (otherLive : graph.node? first = some other)
    (differ : node.symbol ≠ other.symbol) (same : other.value = node.value) :
    (graph.setValue index (.ofSymbol other.symbol)).Acyclic := by
  have lawful := orderly.toLawful
  constructor
  intro symbol
  -- the first equation reads what the folded one read, and keeps its value
  induction symbol using orderly.acyclic.induction with
  | h symbol ih =>
      constructor
      intro read reads
      rw [lawful.reads_setValue live] at reads
      split at reads
      · rename_i here
        subst here
        obtain ⟨atom, member, rfl⟩ := Tensor.mem_symbols.mp reads.1
        rw [(Tensor.mem_atoms_ofSymbol member).1]
        constructor
        intro inner innerReads
        rw [lawful.reads_setValue live, if_neg differ] at innerReads
        apply ih
        obtain ⟨reader, found, among, defined⟩ := innerReads
        rw [lawful.nodeOf?_symbol otherLive, Option.some.injEq] at found
        subst found
        refine ⟨node, lawful.nodeOf?_symbol live, ?_, defined⟩
        rwa [(lawful.regular live).reads_eq, ← same, ← (lawful.regular otherLive).reads_eq]
      · exact ih read reads

theorem rewritten_foldInto (orderly : graph.Orderly limit) {first : Nat} {other : Node κ}
    (live : graph.node? index = some node) (otherLive : graph.node? first = some other)
    (differ : node.symbol ≠ other.symbol) (same : other.value = node.value) :
    Rewritten limit limit graph (graph.setValue index (.ofSymbol other.symbol)) := by
  have lawful := orderly.toLawful
  have otherRegular := lawful.regular otherLive
  apply orderly.rewritten_setValue live
  · rw [Tensor.shape_ofSymbol, ← otherRegular.shape_eq, same]
  · exact Tensor.issued_ofSymbol otherRegular.issued
  · exact fun _ _ => Tensor.placed_ofSymbol other.symbol
  · intro read member
    obtain ⟨atom, among, rfl⟩ := Tensor.mem_symbols.mp member
    rw [(Tensor.mem_atoms_ofSymbol among).1]
    exact Or.inl (isDefined_iff.mpr ⟨other, lawful.nodeOf?_symbol otherLive⟩)
  · exact acyclic_foldInto orderly live otherLive differ same

theorem refines_foldInto [Exact κ] (orderly : graph.Orderly limit) (kept : Symbol → Prop)
    {first : Nat} {other : Node κ} (live : graph.node? index = some node)
    (otherLive : graph.node? first = some other) (differ : node.symbol ≠ other.symbol)
    (same : other.value = node.value) :
    Refines kept graph (graph.setValue index (.ofSymbol other.symbol)) := by
  have lawful := orderly.toLawful
  apply lawful.refines_setValue kept live
  intro inputs environment solves position number means
  have noInput := lawful.noInput (lawful.nodeOf?_symbol otherLive)
  have content : (graph.setValue index (.ofSymbol other.symbol)).content? other.symbol =
      some node.value := by
    rw [lawful.content?_setValue live, if_neg differ, lawful.content?_live otherLive, same]
  have bound := means.lt_size
  rw [← same, (lawful.regular otherLive).shape_eq] at bound
  exact Tensor.meansAt_ofSymbol.mpr ⟨bound, solves.content noInput content means⟩

/-- A step of folding leaves the graph as it is, or folds the equation into one seen before. -/
theorem foldStep_cases (folded : Nat) (orderly : graph.Orderly limit)
    {seen : List (Tensor κ × Symbol)} {tail : List Nat}
    (before : SeenBefore graph seen (index :: tail)) (fresh : index ∉ tail) :
    SeenBefore (foldStep ⟨graph, seen, folded⟩ index).graph
        (foldStep ⟨graph, seen, folded⟩ index).seen tail ∧
      ((foldStep ⟨graph, seen, folded⟩ index).graph = graph ∨
        ∃ node first other, graph.node? index = some node ∧ graph.node? first = some other ∧
          node.symbol ≠ other.symbol ∧ other.value = node.value ∧
            (foldStep ⟨graph, seen, folded⟩ index).graph =
              graph.setValue index (.ofSymbol other.symbol)) := by
  have later : SeenBefore graph seen tail := by
    intro entry member
    obtain ⟨first, other, live, symbol, value, passed⟩ := before entry member
    exact ⟨first, other, live, symbol, value, fun among => passed (List.mem_cons_of_mem _ among)⟩
  unfold foldStep
  simp only
  split
  · exact ⟨later, Or.inl rfl⟩
  rename_i node live
  split
  · exact ⟨later, Or.inl rfl⟩
  split
  · rename_i value symbol found
    obtain ⟨first, other, otherLive, rfl, rfl, passed⟩ := before _ (List.mem_of_find?_eq_some found)
    have same : other.value = node.value := by simpa using List.find?_some found
    have apart : index ≠ first := fun equal => passed (equal ▸ List.mem_cons_self)
    refine ⟨?_, Or.inr ⟨node, first, other, live, otherLive, ?_, same, rfl⟩⟩
    · intro entry member
      obtain ⟨position, target, targetLive, symbol, value, passed⟩ := before entry member
      have elsewhere : index ≠ position := fun equal => passed (equal ▸ List.mem_cons_self)
      refine ⟨position, target, ?_, symbol, value,
        fun among => passed (List.mem_cons_of_mem _ among)⟩
      rw [node?_setValue, if_neg elsewhere, targetLive]
    · intro equal
      exact apart (orderly.toLawful.index_unique live otherLive equal)
  · refine ⟨?_, Or.inl rfl⟩
    intro entry member
    rcases List.mem_append.mp member with old | new
    · exact later entry old
    · rw [List.mem_singleton.mp new]
      exact ⟨index, node, live, rfl, rfl, fresh⟩

theorem foldl_foldStep (indices : List Nat) (unique : indices.Nodup) (state : Folding κ)
    (orderly : state.graph.Orderly limit) (before : SeenBefore state.graph state.seen indices) :
    Rewritten limit limit state.graph (indices.foldl foldStep state).graph := by
  induction indices generalizing state with
  | nil => exact Rewritten.refl orderly
  | cons head tail ih =>
      obtain ⟨graph, seen, folded⟩ := state
      obtain ⟨fresh, rest⟩ := List.nodup_cons.mp unique
      obtain ⟨after, step⟩ := foldStep_cases folded orderly before fresh
      have first : Rewritten limit limit graph (foldStep ⟨graph, seen, folded⟩ head).graph := by
        rcases step with same | ⟨node, first, other, live, otherLive, differ, value, same⟩
        · rw [same]
          exact Rewritten.refl orderly
        · rw [same]
          exact rewritten_foldInto orderly live otherLive differ value
      exact first.trans (ih rest _ first.orderly after)

theorem foldl_foldStep_refines [Exact κ] (kept : Symbol → Prop) (indices : List Nat)
    (unique : indices.Nodup) (state : Folding κ) (orderly : state.graph.Orderly limit)
    (before : SeenBefore state.graph state.seen indices) :
    Refines kept state.graph (indices.foldl foldStep state).graph := by
  induction indices generalizing state with
  | nil => exact Refines.refl kept _
  | cons head tail ih =>
      obtain ⟨graph, seen, folded⟩ := state
      obtain ⟨fresh, rest⟩ := List.nodup_cons.mp unique
      obtain ⟨after, step⟩ := foldStep_cases folded orderly before fresh
      rcases step with same | ⟨node, first, other, live, otherLive, differ, value, same⟩
      · have refines : Refines kept graph (foldStep ⟨graph, seen, folded⟩ head).graph := by
          rw [same]
          exact Refines.refl kept graph
        exact refines.trans (ih rest _ (by rwa [same]) after)
      · have rewritten := rewritten_foldInto orderly live otherLive differ value
        have refines := refines_foldInto orderly kept live otherLive differ value
        rw [← same] at rewritten refines
        exact refines.trans (ih rest _ rewritten.orderly after)

theorem seenBefore_nil (graph : Graph κ) (remaining : List Nat) : SeenBefore graph [] remaining :=
  nofun

theorem foldDuplicates_rewritten (orderly : graph.Orderly limit) :
    Rewritten limit limit graph graph.foldDuplicates.1 :=
  foldl_foldStep graph.liveIndices (nodup_liveIndices graph) ⟨graph, [], 0⟩ orderly
    (seenBefore_nil _ _)

theorem foldDuplicates_refines [Exact κ] (orderly : graph.Orderly limit) (kept : Symbol → Prop) :
    Refines kept graph graph.foldDuplicates.1 :=
  foldl_foldStep_refines kept graph.liveIndices (nodup_liveIndices graph) ⟨graph, [], 0⟩ orderly
    (seenBefore_nil _ _)

end Mechanism.Graph
