import Mechanism.Proofs.Expr.Effort
import Mechanism.Proofs.Graph.SharedWork

/-!
The effort that the equations of a graph take: their operations, but for sums, products and powers
with a constant operand. Constant are numbers, symbols that are defined by sums, products and powers
of constants, and such arithmetic itself; a function counts whatever it is applied to. Each pass of a
build leaves or lowers the effort, although it may add operations with a constant operand.
-/

namespace Mechanism

variable {κ : Type} [Scalar κ]

def Simplifier.Light (simplifier : Simplifier κ) : Prop :=
  ∀ (unit : Symbol → Nat) (expr result : Expr κ), simplifier expr = .ok result →
    result.load unit ≤ expr.load unit

theorem Simplifier.keep_light : (Simplifier.keep : Simplifier κ).Light := by
  intro unit expr result same
  cases same
  exact le_rfl

theorem Simplifier.basic_light (limit : Nat) : (Simplifier.basic limit : Simplifier κ).Light := by
  intro unit expr result simplified
  obtain ⟨_, rfl⟩ := basic_eq_ok.mp simplified
  exact collectIn_le (Expr.load_steady unit) expr

namespace Tensor

def effort (unit : Symbol → Nat) (tensor : Tensor κ) : Nat :=
  (tensor.entries.map (Expr.effort unit)).sum

/-- Every entry is made of numbers and of symbols without a unit by arithmetic. -/
def Weightless (unit : Symbol → Nat) (tensor : Tensor κ) : Prop :=
  ∀ entry ∈ tensor.entries, entry.load unit = 0

/-- The second value, with its own units, takes no more effort than the first one. -/
structure Eases (unit less : Symbol → Nat) (before after : Tensor κ) : Prop where
  effort_le : after.effort less ≤ before.effort unit
  weightless : before.Weightless unit → after.Weightless less

variable {unit less : Symbol → Nat} {tensor : Tensor κ}

theorem effort_le_operations (atMost : ∀ symbol, unit symbol ≤ 1) (tensor : Tensor κ) :
    tensor.effort unit ≤ tensor.operations := by
  rw [operations, total_eq]
  exact List.sum_le_sum fun entry _ => Expr.effort_le_operations atMost entry

theorem load_ofSymbol {symbol : Symbol} {entry : Expr κ}
    (member : entry ∈ (ofSymbol symbol : Tensor κ).entries) : entry.load unit = unit symbol := by
  obtain ⟨atom, _, rfl⟩ := List.mem_map.mp member
  have inside : atom ∈ (ofSymbol symbol : Tensor κ).atoms :=
    mem_atoms.mpr ⟨_, member, by simp [Expr.occurrences]⟩
  rw [Expr.load_atom, (mem_atoms_ofSymbol inside).1]

theorem eases_of_forall₂ {before after : Tensor κ}
    (lighter : List.Forall₂ (fun entry other : Expr κ => other.load less ≤ entry.load unit)
      before.entries after.entries) : Eases unit less before after where
  effort_le := by
    refine List.Forall₂.sum_le_sum (List.forall₂_map_left_iff.mpr
      (List.forall₂_map_right_iff.mpr (lighter.flip.imp ?_)))
    exact fun _ _ le => Nat.sub_le_sub_right le 1
  weightless := by
    intro weightless entry member
    obtain ⟨position, bound, rfl⟩ := List.getElem_of_mem member
    have inside : position < before.entries.length := lighter.length_eq ▸ bound
    have le := lighter.get inside bound
    have none := weightless _ (List.getElem_mem inside)
    exact Nat.eq_zero_of_le_zero (le.trans_eq none)

theorem eases_of_map {before after : Tensor κ} {change : Expr κ → Expr κ}
    (entries : after.entries = before.entries.map change)
    (lighter : ∀ entry ∈ before.entries, (change entry).load less ≤ entry.load unit) :
    Eases unit less before after := by
  apply eases_of_forall₂
  rw [entries]
  exact List.forall₂_map_right_iff.mpr (List.forall₂_same.mpr lighter)

theorem eases_of_le (le : ∀ atom ∈ tensor.atoms, less atom.symbol ≤ unit atom.symbol) :
    Eases unit less tensor tensor :=
  eases_of_map (List.map_id _).symm fun _ member =>
    Expr.load_mono fun atom occurs => le atom (mem_atoms.mpr ⟨_, member, occurs⟩)

theorem eases_substitute {replacement : Atom → Option (Expr κ)}
    (put : ∀ atom ∈ tensor.atoms,
      (Expr.replacementOf replacement atom).load less ≤ unit atom.symbol) :
    Eases unit less tensor (tensor.substitute replacement) :=
  eases_of_map rfl fun _ member =>
    Expr.load_substitute_le fun atom occurs => put atom (mem_atoms.mpr ⟨_, member, occurs⟩)

end Tensor

namespace Graph

variable {graph before after : Graph κ} {limit more : Nat} {constant other : Symbol → Prop}

open Classical in
noncomputable def unitOf (constant : Symbol → Prop) (symbol : Symbol) : Nat :=
  if constant symbol then 0 else 1

theorem unitOf_le_one (constant : Symbol → Prop) (symbol : Symbol) :
    unitOf constant symbol ≤ 1 := by
  unfold unitOf
  split <;> omega

theorem unitOf_eq_zero {symbol : Symbol} : unitOf constant symbol = 0 ↔ constant symbol := by
  simp [unitOf]

theorem unitOf_mono {first second : Symbol} (still : constant first → other second) :
    unitOf other second ≤ unitOf constant first := by
  by_cases here : constant first
  · exact (unitOf_eq_zero.mpr (still here)).trans_le (Nat.zero_le _)
  · have one : unitOf constant first = 1 := if_neg here
    exact one ▸ unitOf_le_one other second

/-- The symbol is defined by arithmetic of numbers and of the given symbols. -/
def Computed (graph : Graph κ) (constant : Symbol → Prop) (symbol : Symbol) : Prop :=
  ∃ index node, graph.node? index = some node ∧ node.symbol = symbol ∧
    node.value.Weightless (unitOf constant)

def Constants (graph : Graph κ) (constant : Symbol → Prop) : Prop :=
  ∀ symbol, constant symbol → graph.Computed constant symbol

def IsConstant (graph : Graph κ) (symbol : Symbol) : Prop :=
  ∃ constant, graph.Constants constant ∧ constant symbol

noncomputable def effortOver (graph : Graph κ) (constant : Symbol → Prop) : Nat :=
  (graph.equations.map fun equation => equation.value.effort (unitOf constant)).sum

/-- The operations of a graph, arithmetic with a constant operand apart. -/
noncomputable def effort (graph : Graph κ) : Nat := graph.effortOver graph.IsConstant

theorem Computed.mono {symbol : Symbol} (computed : graph.Computed constant symbol)
    (le : ∀ symbol, constant symbol → other symbol) : graph.Computed other symbol := by
  obtain ⟨index, node, live, same, weightless⟩ := computed
  refine ⟨index, node, live, same, fun entry member => Nat.eq_zero_of_le_zero ?_⟩
  rw [← weightless entry member]
  exact Expr.load_mono fun atom _ => unitOf_mono (le atom.symbol)

theorem Constants.weightless (constants : graph.Constants constant) (lawful : graph.Lawful limit)
    {index : Nat} {node : Node κ} (live : graph.node? index = some node)
    (member : constant node.symbol) : node.value.Weightless (unitOf constant) := by
  obtain ⟨place, third, found, same, weightless⟩ := constants node.symbol member
  obtain rfl := lawful.index_unique found live same
  rw [live, Option.some.injEq] at found
  exact found ▸ weightless

theorem constants_isConstant (graph : Graph κ) : graph.Constants graph.IsConstant := by
  rintro symbol ⟨constant, constants, member⟩
  exact (constants symbol member).mono fun _ among => ⟨constant, constants, among⟩

theorem effort_le_operations (graph : Graph κ) : graph.effort ≤ graph.operations := by
  rw [operations, total_eq]
  exact List.sum_le_sum fun equation _ =>
    Tensor.effort_le_operations (unitOf_le_one _) equation.value

theorem sum_weightAt_le (graph : Graph κ) (weight : Equation κ → Nat) (length : Nat) :
    ∑ index ∈ Finset.range length, graph.weightAt weight index ≤
      (graph.equations.map weight).sum := by
  rw [sum_equations]
  apply Finset.sum_le_sum_of_ne_zero
  intro index _ weighs
  cases found : graph.node? index with
  | none => simp [weightAt, found] at weighs
  | some node => exact Finset.mem_range.mpr (node?_lt found)

/-- Sums over two graphs, when what has a weight in the second one is no lighter in the first. -/
theorem sum_equations_le {first second : Equation κ → Nat}
    (each : ∀ {index : Nat} {node : Node κ}, after.node? index = some node → ∃ former,
      before.node? index = some former ∧ second node.equation ≤ first former.equation) :
    (after.equations.map second).sum ≤ (before.equations.map first).sum := by
  rw [sum_equations after]
  refine (Finset.sum_le_sum fun index _ => ?_).trans (before.sum_weightAt_le first _)
  cases live : after.node? index with
  | none => simp [weightAt, live]
  | some node =>
      obtain ⟨former, found, le⟩ := each live
      rwa [weightAt_live live, weightAt_live found]

theorem effortOver_le
    (each : ∀ {index : Nat} {node : Node κ}, after.node? index = some node → ∃ former,
      before.node? index = some former ∧
        node.value.effort (unitOf other) ≤ former.value.effort (unitOf constant)) :
    after.effortOver other ≤ before.effortOver constant :=
  sum_equations_le each

theorem effort_le_effortOver (constants : graph.Constants constant) :
    graph.effort ≤ graph.effortOver constant := by
  refine effortOver_le fun {index node} live => ⟨node, live, ?_⟩
  exact (Tensor.eases_of_le fun atom _ =>
    unitOf_mono fun member => ⟨constant, constants, member⟩).effort_le

/-- Whatever is taken to be constant before, what can be taken to be constant afterwards leaves no
more effort. -/
def Eases (before after : Graph κ) : Prop :=
  ∀ constant, before.Constants constant → ∃ other, after.Constants other ∧
    after.effortOver other ≤ before.effortOver constant

theorem Eases.refl (graph : Graph κ) : Eases graph graph :=
  fun constant constants => ⟨constant, constants, le_rfl⟩

theorem Eases.trans {middle : Graph κ} (first : Eases before middle) (second : Eases middle after) :
    Eases before after := by
  intro constant constants
  obtain ⟨other, others, le⟩ := first constant constants
  obtain ⟨last, lasts, lastLe⟩ := second other others
  exact ⟨last, lasts, lastLe.trans le⟩

theorem Eases.effort_le (eases : Eases before after) : after.effort ≤ before.effort := by
  obtain ⟨other, others, le⟩ := eases before.IsConstant (constants_isConstant before)
  exact (effort_le_effortOver others).trans le

theorem eases_of_nodes (same : ∀ index, after.node? index = before.node? index) :
    Eases before after := by
  intro constant constants
  refine ⟨constant, ?_, effortOver_le fun {index node} live => ⟨node, same index ▸ live, le_rfl⟩⟩
  intro symbol member
  obtain ⟨index, node, live, computed⟩ := constants symbol member
  exact ⟨index, node, (same index).trans live, computed⟩

theorem eases_setValue {index : Nat} {node : Node κ} (live : graph.node? index = some node)
    {value : Tensor κ}
    (eases : ∀ constant, graph.Constants constant →
      Tensor.Eases (unitOf constant) (unitOf (graph.Computed constant)) node.value value) :
    Eases graph (graph.setValue index value) := by
  intro constant constants
  have same : ∀ tensor : Tensor κ,
      Tensor.Eases (unitOf constant) (unitOf (graph.Computed constant)) tensor tensor :=
    fun tensor => Tensor.eases_of_le fun atom _ => unitOf_mono (constants atom.symbol)
  refine ⟨graph.Computed constant, ?_, effortOver_le ?_⟩
  · rintro symbol ⟨place, third, found, rfl, weightless⟩
    by_cases here : index = place
    · subst here
      rw [live, Option.some.injEq] at found
      subst found
      refine ⟨index, node.withValue value, ?_, rfl, (eases constant constants).weightless weightless⟩
      rw [node?_setValue, if_pos rfl, live]
      rfl
    · refine ⟨place, third, ?_, rfl, (same third.value).weightless weightless⟩
      rw [node?_setValue, if_neg here, found]
  · intro place third found
    rw [node?_setValue] at found
    split at found
    · rename_i here
      subst here
      rw [live] at found
      cases found
      exact ⟨node, live, (eases constant constants).effort_le⟩
    · exact ⟨third, found, (same third.value).effort_le⟩

theorem simplifyOne_eases (light : graph.simplifier.Light) (failures index : Nat) :
    Eases graph (simplifyOne (graph, failures) index).1 := by
  unfold simplifyOne
  simp only
  split
  · exact Eases.refl graph
  · rename_i node live
    split
    · rename_i value simplified
      obtain ⟨_, entries⟩ := Simplifier.onTensor_eq_ok simplified
      refine eases_setValue live fun constant constants => Tensor.eases_of_forall₂ ?_
      refine entries.imp fun entry result same => (light _ entry result same).trans' ?_
      exact Expr.load_mono fun atom _ => unitOf_mono (constants atom.symbol)
    · exact Eases.refl graph

theorem foldl_simplifyOne_eases (indices : List Nat) {graph : Graph κ}
    (orderly : graph.Orderly limit) (modest : graph.simplifier.Modest)
    (light : graph.simplifier.Light) (failures : Nat) :
    Eases graph (indices.foldl simplifyOne (graph, failures)).1 := by
  induction indices generalizing graph failures with
  | nil => exact Eases.refl graph
  | cons head tail ih =>
      have first := simplifyOne_rewritten orderly modest failures head
      have eases := simplifyOne_eases light failures head
      rw [List.foldl_cons]
      rcases same : simplifyOne (graph, failures) head with ⟨later, count⟩
      rw [same] at first eases
      exact eases.trans
        (ih first.orderly (first.simplifier ▸ modest) (first.simplifier ▸ light) count)

theorem eases_foldInto {index first : Nat} {node twin : Node κ}
    (live : graph.node? index = some node) (twinLive : graph.node? first = some twin)
    (same : twin.value = node.value) :
    Eases graph (graph.setValue index (.ofSymbol twin.symbol)) := by
  refine eases_setValue live fun constant _ => ⟨?_, fun weightless entry member => ?_⟩
  · refine (Tensor.effort_le_operations (unitOf_le_one _) _).trans ?_
    rw [Tensor.operations_ofSymbol]
    exact Nat.zero_le _
  · rw [Tensor.load_ofSymbol member]
    exact unitOf_eq_zero.mpr ⟨first, twin, twinLive, rfl, same ▸ weightless⟩

theorem foldl_foldStep_eases (indices : List Nat) (unique : indices.Nodup) (state : Folding κ)
    (orderly : state.graph.Orderly limit) (before : SeenBefore state.graph state.seen indices) :
    Eases state.graph (indices.foldl foldStep state).graph := by
  induction indices generalizing state with
  | nil => exact Eases.refl _
  | cons head tail ih =>
      obtain ⟨graph, seen, folded⟩ := state
      obtain ⟨fresh, rest⟩ := List.nodup_cons.mp unique
      obtain ⟨after, step⟩ := foldStep_cases folded orderly before fresh
      rcases step with same | ⟨node, first, twin, live, twinLive, differ, value, same⟩
      · have eases : Eases graph (foldStep ⟨graph, seen, folded⟩ head).graph := by
          rw [same]
          exact Eases.refl graph
        exact eases.trans (ih rest _ (by rwa [same]) after)
      · have rewritten := rewritten_foldInto orderly live twinLive differ value
        have eases := eases_foldInto live twinLive value
        rw [← same] at rewritten eases
        exact eases.trans (ih rest _ rewritten.orderly after)

theorem folded_eases (orderly : graph.Orderly limit) (modest : graph.simplifier.Modest)
    (light : graph.simplifier.Light) : Eases graph graph.simplifyValues.1.foldDuplicates.1 := by
  have simplified := simplifyValues_rewritten orderly modest
  exact (foldl_simplifyOne_eases graph.liveIndices orderly modest light 0).trans
    (foldl_foldStep_eases _ (nodup_liveIndices _) ⟨_, [], 0⟩ simplified.orderly
      (seenBefore_nil _ _))

namespace Inlines

variable {temporary reader : Nat} {node other : Node κ} {replacement : Expr κ}
  (inlines : Inlines graph temporary reader node other replacement)

include inlines

theorem load_replacement (orderly : graph.Orderly limit) :
    replacement.load (unitOf fun symbol => constant symbol ∧ symbol ≠ node.symbol) =
      replacement.load (unitOf constant) := by
  have regular := orderly.toLawful.regular inlines.live
  have apart : ∀ atom ∈ replacement.occurrences, atom.symbol ≠ node.symbol := by
    intro atom occurs same
    apply orderly.acyclic.not_reads_self (orderly.toLawful.nodeOf?_symbol inlines.live)
    refine same ▸ regular.mem_reads ?_
    rw [inlines.value_eq]
    exact Tensor.mem_atoms_ofExpr.mpr occurs
  apply le_antisymm
  · exact Expr.load_mono fun atom occurs => unitOf_mono fun member => ⟨member, apart atom occurs⟩
  · exact Expr.load_mono fun atom _ => unitOf_mono And.left

theorem load_eq_zero (orderly : graph.Orderly limit) (constants : graph.Constants constant)
    (member : constant node.symbol) : replacement.load (unitOf constant) = 0 := by
  apply constants.weightless orderly.toLawful inlines.live member
  rw [inlines.value_eq]
  exact List.mem_singleton_self _

theorem load_put_le (orderly : graph.Orderly limit) (constants : graph.Constants constant)
    {atom : Atom} (member : constant atom.symbol) :
    (Expr.replacementOf (replaceSymbol node.symbol replacement) atom).load
      (unitOf fun symbol => constant symbol ∧ symbol ≠ node.symbol) = 0 := by
  by_cases here : atom.symbol = node.symbol
  · have put := replacementOf_replaceSymbol here replacement
    rw [put, inlines.load_replacement orderly]
    exact inlines.load_eq_zero orderly constants (here ▸ member)
  · have kept := replacementOf_replaceSymbol_of_ne here replacement
    rw [kept, Expr.load_atom]
    exact unitOf_eq_zero.mpr ⟨member, here⟩

theorem load_substitute_le (orderly : graph.Orderly limit) (constants : graph.Constants constant)
    (entry : Expr κ) :
    (entry.substitute (replaceSymbol node.symbol replacement)).load
        (unitOf fun symbol => constant symbol ∧ symbol ≠ node.symbol) ≤
      entry.load (unitOf constant) + entry.uses (fun atom => atom.symbol == node.symbol) *
        replacement.effort (unitOf constant) := by
  let between : Symbol → Nat := fun symbol =>
    if symbol = node.symbol then replacement.load (unitOf constant) else unitOf constant symbol
  calc
    _ ≤ entry.load between := by
      refine Expr.load_substitute_le fun atom _ => ?_
      by_cases here : atom.symbol = node.symbol
      · have put := replacementOf_replaceSymbol here replacement
        rw [put, inlines.load_replacement orderly]
        simp [between, here]
      · have kept := replacementOf_replaceSymbol_of_ne here replacement
        rw [kept, Expr.load_atom]
        simp only [between, if_neg here]
        exact unitOf_mono fun member => ⟨member, here⟩
    _ ≤ _ := by
      refine Expr.load_le_add_uses (fun symbol away => by simp [between, away]) ?_ entry
      simp only [between, if_pos]
      by_cases member : constant node.symbol
      · rw [inlines.load_eq_zero orderly constants member]
        exact Nat.zero_le _
      · have one : unitOf constant node.symbol = 1 := if_neg member
        rw [one, Expr.effort]
        omega

theorem effort_reader_le (orderly : graph.Orderly limit) (constants : graph.Constants constant) :
    (other.value.substitute (replaceSymbol node.symbol replacement)).effort
        (unitOf fun symbol => constant symbol ∧ symbol ≠ node.symbol) ≤
      other.value.effort (unitOf constant) + node.value.effort (unitOf constant) := by
  have once : Expr.usesIn (fun atom => atom.symbol == node.symbol) other.value.entries ≤ 1 :=
    inlines.usesIn_reader_once
  have moved : node.value.effort (unitOf constant) = replacement.effort (unitOf constant) := by
    rw [inlines.value_eq]
    simp [Tensor.effort, Tensor.ofExpr]
  calc
    _ ≤ (other.value.entries.map fun entry => entry.effort (unitOf constant) +
          entry.uses (fun atom => atom.symbol == node.symbol) *
            replacement.effort (unitOf constant)).sum := by
      rw [Tensor.effort, Tensor.substitute, Tensor.map, List.map_map]
      refine List.sum_le_sum fun entry _ => ?_
      have heavier := inlines.load_substitute_le orderly constants entry
      simp only [Function.comp_apply, Expr.effort] at heavier ⊢
      omega
    _ = other.value.effort (unitOf constant) +
          Expr.usesIn (fun atom => atom.symbol == node.symbol) other.value.entries *
            replacement.effort (unitOf constant) := by
      rw [List.sum_map_add, List.sum_map_mul_right, Tensor.effort, Expr.usesIn]
    _ ≤ _ := by
      rw [moved]
      exact Nat.add_le_add_left
        ((Nat.mul_le_mul_right _ once).trans_eq (Nat.one_mul _)) _

theorem eases (orderly : graph.Orderly limit) :
    Eases graph (graph.inlined temporary reader node other replacement) := by
  intro constant constants
  have lawful := orderly.toLawful
  have unread : ∀ {index : Nat} {third : Node κ}, graph.node? index = some third →
      index ≠ reader → Tensor.Eases (unitOf constant)
        (unitOf fun symbol => constant symbol ∧ symbol ≠ node.symbol) third.value third.value := by
    intro index third live elsewhere
    refine Tensor.eases_of_le fun atom member => unitOf_mono fun among => ⟨among, fun same => ?_⟩
    exact inlines.unread lawful live elsewhere (same ▸ (lawful.regular live).mem_reads member)
  refine ⟨fun symbol => constant symbol ∧ symbol ≠ node.symbol, ?_,
    inlines.sum_inlined_le (inlines.effort_reader_le orderly constants) fun live elsewhere =>
      (unread live elsewhere).effort_le⟩
  rintro symbol ⟨member, apart⟩
  obtain ⟨index, third, live, rfl, weightless⟩ := constants symbol member
  have now := inlines.node?_inlined index
  have elsewhere : temporary ≠ index := by
    rintro rfl
    rw [inlines.live, Option.some.injEq] at live
    exact apart (congrArg Node.symbol live).symm
  rw [if_neg elsewhere] at now
  by_cases here : reader = index
  · subst here
    rw [inlines.readerLive, Option.some.injEq] at live
    subst live
    rw [if_pos rfl] at now
    refine ⟨reader, _, now, rfl, fun entry among => ?_⟩
    obtain ⟨former, inside, rfl⟩ := List.mem_map.mp among
    refine Nat.eq_zero_of_le_zero ((Expr.load_substitute_le fun atom occurs => ?_).trans_eq
      (weightless former inside))
    have known := Expr.unit_eq_zero (weightless former inside) atom occurs
    exact (inlines.load_put_le orderly constants (unitOf_eq_zero.mp known)).trans_le (Nat.zero_le _)
  · rw [if_neg here] at now
    exact ⟨index, third, now.trans live, rfl,
      (unread live (Ne.symm here)).weightless weightless⟩

end Inlines

theorem Waiting.step_eases {temporary : Nat} {tail : List Nat}
    (waiting : Waiting limit more graph (temporary :: tail)) (count : Nat) :
    Eases graph (inlineOne (graph, count) temporary).1 := by
  obtain ⟨node, live, fresh, single⟩ := waiting.fresh temporary List.mem_cons_self
  rcases inlineOne_cases waiting.orderly.toLawful live single count with
    same | ⟨reader, other, replacement, inlines, same⟩
  · rw [same]
    exact Eases.refl graph
  · rw [same]
    exact inlines.eases waiting.orderly

theorem foldl_inlineOne_eases (remaining : List Nat) {graph : Graph κ}
    (waiting : Waiting limit more graph remaining) (count : Nat) :
    Eases graph (remaining.foldl inlineOne (graph, count)).1 := by
  induction remaining generalizing graph count with
  | nil => exact Eases.refl graph
  | cons head tail ih =>
      obtain ⟨later, _⟩ := waiting.step count
      have first := waiting.step_eases count
      rw [List.foldl_cons]
      rcases same : inlineOne (graph, count) head with ⟨after, inlinedCount⟩
      rw [same] at later first
      exact first.trans (ih later inlinedCount)

/-- What renames a constant is a constant, and so is the end of a chain of renamings that starts
with one. -/
theorem Constants.last {ends : Table Symbol Symbol} (constants : graph.Constants constant)
    (orderly : graph.Orderly limit) (renames : graph.Renames ends) {symbol last : Symbol}
    (found : ends.find? symbol = some last) (sized : 0 < symbol.shape.size)
    (member : constant symbol) : constant last := by
  have lawful := orderly.toLawful
  induction symbol using orderly.acyclic.induction with
  | h symbol ih =>
      obtain ⟨node, target, defined, whole, next⟩ := renames.definition found
      obtain ⟨index, live, rfl⟩ := lawful.nodeOf?_iff.mp defined
      have shape : target.shape = node.symbol.shape := by
        rw [← (lawful.regular live).shape_eq, whole, Tensor.shape_ofSymbol]
      obtain ⟨entry, among⟩ := List.exists_mem_of_length_pos
        ((Tensor.length_ofSymbol (κ := κ) target).symm ▸ shape ▸ sized)
      have weightless := constants.weightless lawful live member entry (whole ▸ among)
      rw [Tensor.load_ofSymbol among, unitOf_eq_zero] at weightless
      rcases next with rfl | further
      · exact weightless
      · obtain ⟨atom, _, rfl⟩ := List.mem_map.mp among
        have inside : atom ∈ (Tensor.ofSymbol target : Tensor κ).atoms :=
          Tensor.mem_atoms.mpr ⟨_, among, by simp [Expr.occurrences]⟩
        have reads := (lawful.regular live).mem_reads (whole ▸ inside)
        rw [(Tensor.mem_atoms_ofSymbol inside).1] at reads
        obtain ⟨third, _, targetDefined, _⟩ := renames.definition further
        exact ih target ⟨node, defined, reads, isDefined_iff.mpr ⟨third, targetDefined⟩⟩ further
          (shape ▸ sized) weightless

theorem Renames.eases_value {ends : Table Symbol Symbol} (renames : graph.Renames ends)
    (orderly : graph.Orderly limit) (placed : graph.Placed)
    (constants : graph.Constants constant) {index : Nat} {node now : Node κ}
    (live : graph.node? index = some node)
    (kept : retargeted ends node = some now) :
    Tensor.Eases (unitOf constant) (unitOf fun symbol => constant symbol ∧ ends.find? symbol = none)
      node.value now.value := by
  have regular := orderly.toLawful.regular live
  rcases (retargeted_eq_some kept).2 with rfl | ⟨rfl, reads⟩
  · refine Tensor.eases_substitute fun atom member => ?_
    cases found : ends.find? atom.symbol with
    | none =>
        rw [replacementOf_retarget_none found, Expr.load_atom]
        exact unitOf_mono fun among => ⟨among, found⟩
    | some last =>
        have within := (placed live).value atom member
        obtain ⟨other, put, symbol, _⟩ :=
          replacementOf_retarget (κ := κ) found (renames.shape_eq found) within
        rw [put, Expr.load_atom, symbol]
        exact unitOf_mono fun among => ⟨constants.last orderly renames found
          ((Nat.zero_le _).trans_lt within) among, renames.final found⟩
  · exact Tensor.eases_of_le fun atom member => unitOf_mono fun among =>
      ⟨among, reads _ (regular.mem_reads member)⟩

theorem Removed.eases {ends : Table Symbol Symbol}
    (removed : Removed ends graph.liveIndices graph after) (renames : graph.Renames ends)
    (orderly : graph.Orderly limit) (placed : graph.Placed) : Eases graph after := by
  intro constant constants
  refine ⟨fun symbol => constant symbol ∧ ends.find? symbol = none, ?_, effortOver_le ?_⟩
  · rintro symbol ⟨member, kept⟩
    obtain ⟨index, node, live, rfl, weightless⟩ := constants symbol member
    obtain ⟨now, same, symbol⟩ := retargeted_of_kept (κ := κ) kept
    refine ⟨index, now, ?_, symbol, ?_⟩
    · rw [removed.node?_eq, live, Option.bind_some, same]
    · exact (renames.eases_value orderly placed constants live same).weightless weightless
  · intro index now found
    rw [removed.node?_eq] at found
    obtain ⟨node, live, same⟩ := Option.bind_eq_some_iff.mp found
    exact ⟨node, live, (renames.eases_value orderly placed constants live same).effort_le⟩

theorem eliminateAliases_eases (orderly : graph.Orderly limit) (placed : graph.Placed) :
    Eases graph graph.eliminateAliases.1 := by
  rcases eliminateAliases_eq graph with same | same
  · rw [same]
    exact Eases.refl graph
  · rw [same]
    exact (foldl_removeAlias graph.liveIndices (nodup_liveIndices graph) graph).eases
      (endsOf_renames orderly) orderly placed

end Graph

end Mechanism
