import Mechanism.Graph.Build
import Mechanism.Proofs.Tensor.Algebra

/-!
Live equations by number and by symbol, and what becomes of them when a graph is changed.

What holds of the equations of every graph that is made by its own operations is that definitions
and live equations name each other, and that all symbols have been issued.
-/

namespace Mechanism.Graph

variable {κ : Type} [Scalar κ] {graph : Graph κ} {index : Nat} {node : Node κ} {symbol : Symbol}

theorem node?_eq_some :
    graph.node? index = some node ↔ graph.nodes[index]? = some node ∧ node.removed = false := by
  simp [node?, Option.filter_eq_some_iff]

theorem node?_lt (found : graph.node? index = some node) : index < graph.nodes.length :=
  (List.getElem?_eq_some_iff.mp (node?_eq_some.mp found).1).1

theorem symbolAt?_of_node? (found : graph.node? index = some node) :
    graph.symbolAt? index = some node.symbol := by
  rw [symbolAt?, (node?_eq_some.mp found).1, Option.map_some]

theorem mem_liveIndices : index ∈ graph.liveIndices ↔ ∃ node, graph.node? index = some node := by
  rw [liveIndices, List.mem_filter, Option.isSome_iff_exists, List.mem_range, and_iff_right_iff_imp]
  rintro ⟨node, found⟩
  exact node?_lt found

theorem pairwise_liveIndices (graph : Graph κ) : graph.liveIndices.Pairwise (· < ·) :=
  List.pairwise_lt_range.sublist List.filter_sublist

theorem nodup_liveIndices (graph : Graph κ) : graph.liveIndices.Nodup :=
  (List.nodup_range).sublist List.filter_sublist

theorem mem_liveNodes : node ∈ graph.liveNodes ↔ ∃ index, graph.node? index = some node := by
  rw [liveNodes, List.mem_filter, List.mem_iff_getElem?]
  simp [node?_eq_some]

theorem liveNodes_eq (graph : Graph κ) :
    graph.liveNodes = graph.liveIndices.filterMap graph.node? := by
  have walk : ∀ nodes : List (Node κ),
      (nodes.filter fun node => !node.removed) =
        (List.range nodes.length).filterMap fun index =>
          nodes[index]?.filter fun node => !node.removed := by
    intro nodes
    induction nodes with
    | nil => rfl
    | cons head tail ih =>
        rw [List.length_cons, List.range_succ_eq_map, List.filterMap_cons, List.filterMap_map]
        cases live : head.removed <;> simp [live, ih, Option.filter]
  have live : ∀ indices : List Nat, (indices.filter fun index => (graph.node? index).isSome).filterMap
      graph.node? = indices.filterMap graph.node? := by
    intro indices
    rw [List.filterMap_filter]
    apply List.filterMap_congr
    intro index _
    cases graph.node? index <;> rfl
  rw [liveNodes, walk, liveIndices, live]
  rfl

def nodeOf? (graph : Graph κ) (symbol : Symbol) : Option (Node κ) :=
  graph.liveIndex? symbol >>= graph.node?

theorem liveIndex?_eq_some :
    graph.liveIndex? symbol = some index ↔
      graph.definitions.find? symbol = some index ∧ ∃ node, graph.node? index = some node := by
  rw [liveIndex?, Option.filter_eq_some_iff, Option.isSome_iff_exists]

theorem nodeOf?_eq_some :
    graph.nodeOf? symbol = some node ↔
      ∃ index, graph.liveIndex? symbol = some index ∧ graph.node? index = some node := by
  rw [nodeOf?, Option.bind_eq_bind, Option.bind_eq_some_iff]

theorem nodeOf?_eq (graph : Graph κ) (symbol : Symbol) :
    graph.nodeOf? symbol = (graph.definitions.find? symbol).bind graph.node? := by
  unfold nodeOf? liveIndex?
  cases graph.definitions.find? symbol with
  | none => rfl
  | some index => cases live : graph.node? index <;> simp [live, Option.filter]

theorem isDefined_iff : graph.isDefined symbol = true ↔ ∃ node, graph.nodeOf? symbol = some node := by
  rw [isDefined, Option.isSome_iff_exists]
  constructor
  · rintro ⟨index, found⟩
    obtain ⟨_, node, live⟩ := liveIndex?_eq_some.mp found
    exact ⟨node, nodeOf?_eq_some.mpr ⟨index, found, live⟩⟩
  · rintro ⟨node, found⟩
    obtain ⟨index, found, _⟩ := nodeOf?_eq_some.mp found
    exact ⟨index, found⟩

theorem isDefined_eq (graph : Graph κ) (symbol : Symbol) :
    graph.isDefined symbol = (graph.nodeOf? symbol).isSome := by
  rw [Bool.eq_iff_iff, isDefined_iff, Option.isSome_iff_exists]

theorem equation?_eq (graph : Graph κ) (symbol : Symbol) :
    graph.equation? symbol = (graph.nodeOf? symbol).map Node.equation := by
  simp only [equation?, nodeOf?, Option.bind_eq_bind]
  cases graph.liveIndex? symbol with
  | none => rfl
  | some index => cases found : graph.node? index <;> simp [found]

theorem node?_modifyNode (graph : Graph κ) (index other : Nat) (change : Node κ → Node κ) :
    (graph.modifyNode index change).node? other =
      if index = other then (graph.nodes[other]?.map change).filter fun node => !node.removed
      else graph.node? other := by
  simp only [node?, modifyNode, List.getElem?_modify]
  split
  · rfl
  · simp

theorem node?_setValue (graph : Graph κ) (index other : Nat) (value : Tensor κ) :
    (graph.setValue index value).node? other =
      if index = other then (graph.node? other).map fun node => node.withValue value
      else graph.node? other := by
  rw [setValue, node?_modifyNode]
  split
  · cases found : graph.nodes[other]? with
    | none => simp [node?, found]
    | some node =>
        cases live : node.removed <;> simp [node?, found, live, Node.withValue, Option.filter]
  · rfl

theorem node?_removeNode (graph : Graph κ) (index other : Nat) :
    (graph.removeNode index).node? other = if index = other then none else graph.node? other := by
  rw [removeNode, node?_modifyNode]
  split
  · cases graph.nodes[other]? <;> simp
  · rfl

theorem node?_appendNode (graph : Graph κ) (live : node.removed = false) (other : Nat) :
    (graph.appendNode node).node? other =
      if graph.nodes.length = other then some node else graph.node? other := by
  simp only [node?, appendNode]
  rcases Nat.lt_trichotomy other graph.nodes.length with before | here | after
  · rw [List.getElem?_append_left before, if_neg (by omega)]
  · subst here
    simp [live]
  · rw [if_neg (by omega), List.getElem?_eq_none (by simp; omega), List.getElem?_eq_none (by omega)]

theorem find?_definitions_appendNode (graph : Graph κ) (node : Node κ) (symbol : Symbol) :
    (graph.appendNode node).definitions.find? symbol =
      if node.symbol = symbol then some graph.nodes.length else graph.definitions.find? symbol :=
  Table.find?_insert _ _ _ _

@[simp] theorem symbol_withValue (node : Node κ) (value : Tensor κ) :
    (node.withValue value).symbol = node.symbol := rfl

@[simp] theorem value_withValue (node : Node κ) (value : Tensor κ) :
    (node.withValue value).value = value := rfl

@[simp] theorem reads_withValue (node : Node κ) (value : Tensor κ) :
    (node.withValue value).reads = value.symbols := rfl

variable {limit : Nat}

/-- The value has the shape of the symbol and reads issued symbols, and these are listed. -/
structure Node.Regular (limit : Nat) (node : Node κ) : Prop where
  reads_eq : node.reads = node.value.symbols
  shape_eq : node.value.shape = node.symbol.shape
  value : node.value.Issued limit
  issued : node.symbol.number < limit

/-- A removed symbol stands for an issued symbol of its shape. -/
structure Stands (limit : Nat) (symbol : Symbol) (target : Tensor κ) (other : Symbol) : Prop where
  target_eq : target = Tensor.ofSymbol other
  shape_eq : other.shape = symbol.shape
  issued : symbol.number < limit ∧ other.number < limit

/-- The tables of a graph fit together, and all its symbols have numbers below the limit. -/
structure Lawful (limit : Nat) (graph : Graph κ) : Prop where
  found : ∀ {symbol : Symbol} {index : Nat},
    graph.definitions.find? symbol = some index → graph.symbolAt? index = some symbol
  current : ∀ {index : Nat} {node : Node κ},
    graph.node? index = some node → graph.definitions.find? node.symbol = some index
  regular : ∀ {index : Nat} {node : Node κ}, graph.node? index = some node → node.Regular limit
  apart : ∀ {symbol : Symbol}, graph.isInput symbol = true → graph.isDefined symbol = false
  inputs : ∀ {symbol : Symbol}, graph.isInput symbol = true → symbol.number < limit
  aliases : ∀ {symbol : Symbol} {target : Tensor κ},
    graph.aliases.find? symbol = some target → ∃ other, Stands limit symbol target other

theorem Node.Regular.mono {node : Node κ} (regular : node.Regular limit) {more : Nat}
    (le : limit ≤ more) : node.Regular more where
  reads_eq := regular.reads_eq
  shape_eq := regular.shape_eq
  value := regular.value.mono le
  issued := regular.issued.trans_le le

theorem Node.Regular.withValue {node : Node κ} (regular : node.Regular limit) {value : Tensor κ}
    (shape : value.shape = node.value.shape) (valueIssued : value.Issued limit) :
    (node.withValue value).Regular limit where
  reads_eq := rfl
  shape_eq := by
    rw [value_withValue, symbol_withValue, shape, regular.shape_eq]
  value := valueIssued
  issued := regular.issued

theorem Node.Regular.mem_reads {node : Node κ} (regular : node.Regular limit) {atom : Atom}
    (member : atom ∈ node.value.atoms) : atom.symbol ∈ node.reads := by
  rw [regular.reads_eq]
  exact Tensor.mem_symbols.mpr ⟨atom, member, rfl⟩

namespace Lawful

variable {graph : Graph κ} (lawful : graph.Lawful limit)

include lawful

theorem mono {more : Nat} (le : limit ≤ more) : graph.Lawful more where
  found := lawful.found
  current := lawful.current
  regular := fun live => (lawful.regular live).mono le
  apart := lawful.apart
  inputs := fun input => (lawful.inputs input).trans_le le
  aliases := by
    intro symbol target known
    obtain ⟨other, stands⟩ := lawful.aliases known
    exact ⟨other, stands.target_eq, stands.shape_eq, stands.issued.1.trans_le le,
      stands.issued.2.trans_le le⟩

theorem congr {other : Graph κ} (nodes : other.nodes = graph.nodes)
    (definitions : other.definitions = graph.definitions) (inputs : other.inputs = graph.inputs)
    (aliases : other.aliases = graph.aliases) : other.Lawful limit := by
  obtain ⟨_, _, _, _, _, _, _, _, _, _, _⟩ := other
  cases nodes
  cases definitions
  cases inputs
  cases aliases
  exact ⟨lawful.found, lawful.current, lawful.regular, lawful.apart, lawful.inputs, lawful.aliases⟩

theorem liveIndex?_eq {index : Nat} {node : Node κ} (live : graph.node? index = some node) :
    graph.liveIndex? node.symbol = some index :=
  liveIndex?_eq_some.mpr ⟨lawful.current live, node, live⟩

theorem symbol_of_definition {symbol : Symbol} {index : Nat} {node : Node κ}
    (found : graph.definitions.find? symbol = some index) (live : graph.node? index = some node) :
    node.symbol = symbol := by
  have named := lawful.found found
  rwa [symbolAt?_of_node? live, Option.some.injEq] at named

theorem nodeOf?_iff {symbol : Symbol} {node : Node κ} :
    graph.nodeOf? symbol = some node ↔
      ∃ index, graph.node? index = some node ∧ node.symbol = symbol := by
  rw [nodeOf?_eq_some]
  constructor
  · rintro ⟨index, found, live⟩
    exact ⟨index, live, lawful.symbol_of_definition (liveIndex?_eq_some.mp found).1 live⟩
  · rintro ⟨index, live, rfl⟩
    exact ⟨index, lawful.liveIndex?_eq live, live⟩

theorem nodeOf?_symbol {index : Nat} {node : Node κ} (live : graph.node? index = some node) :
    graph.nodeOf? node.symbol = some node :=
  lawful.nodeOf?_iff.mpr ⟨index, live, rfl⟩

theorem symbol_eq {symbol : Symbol} {node : Node κ} (found : graph.nodeOf? symbol = some node) :
    node.symbol = symbol := by
  obtain ⟨_, _, same⟩ := lawful.nodeOf?_iff.mp found
  exact same

theorem regular_of_nodeOf? {symbol : Symbol} {node : Node κ}
    (found : graph.nodeOf? symbol = some node) : node.Regular limit := by
  obtain ⟨_, live, _⟩ := lawful.nodeOf?_iff.mp found
  exact lawful.regular live

theorem index_unique {first second : Nat} {left right : Node κ}
    (one : graph.node? first = some left) (other : graph.node? second = some right)
    (same : left.symbol = right.symbol) : first = second := by
  have current := lawful.current one
  rw [same, lawful.current other, Option.some.injEq] at current
  exact current.symm

theorem noInput {symbol : Symbol} {node : Node κ} (found : graph.nodeOf? symbol = some node) :
    graph.isInput symbol = false := by
  rw [← Bool.not_eq_true]
  intro input
  have undefined := lawful.apart input
  rw [isDefined_iff.mpr ⟨node, found⟩] at undefined
  cases undefined

theorem defined_issued {symbol : Symbol} (isDefined : graph.isDefined symbol = true) :
    symbol.number < limit := by
  obtain ⟨node, found⟩ := isDefined_iff.mp isDefined
  rw [← lawful.symbol_eq found]
  exact (lawful.regular_of_nodeOf? found).issued

theorem nodeOf?_setValue {index : Nat} {node : Node κ} (live : graph.node? index = some node)
    (value : Tensor κ) (symbol : Symbol) :
    (graph.setValue index value).nodeOf? symbol =
      if node.symbol = symbol then some (node.withValue value) else graph.nodeOf? symbol := by
  rw [nodeOf?_eq, nodeOf?_eq]
  change (graph.definitions.find? symbol).bind (graph.setValue index value).node? = _
  cases found : graph.definitions.find? symbol with
  | none =>
      rw [if_neg]
      · rfl
      · rintro rfl
        rw [lawful.current live] at found
        cases found
  | some other =>
      simp only [Option.bind_some, node?_setValue]
      by_cases same : index = other
      · subst same
        simp [lawful.symbol_of_definition found live, live]
      · rw [if_neg same, if_neg]
        rintro rfl
        rw [lawful.current live, Option.some.injEq] at found
        exact same found

theorem nodeOf?_removeNode {index : Nat} {node : Node κ} (live : graph.node? index = some node)
    (symbol : Symbol) :
    (graph.removeNode index).nodeOf? symbol =
      if node.symbol = symbol then none else graph.nodeOf? symbol := by
  rw [nodeOf?_eq, nodeOf?_eq]
  change (graph.definitions.find? symbol).bind (graph.removeNode index).node? = _
  cases found : graph.definitions.find? symbol with
  | none => simp
  | some other =>
      simp only [Option.bind_some, node?_removeNode]
      by_cases same : index = other
      · subst same
        simp [lawful.symbol_of_definition found live]
      · rw [if_neg same, if_neg]
        rintro rfl
        rw [lawful.current live, Option.some.injEq] at found
        exact same found

theorem nodeOf?_appendNode {node : Node κ} (live : node.removed = false) (symbol : Symbol) :
    (graph.appendNode node).nodeOf? symbol =
      if node.symbol = symbol then some node else graph.nodeOf? symbol := by
  rw [nodeOf?_eq, nodeOf?_eq, find?_definitions_appendNode]
  split
  · rw [Option.bind_some, node?_appendNode graph live, if_pos rfl]
  · cases found : graph.definitions.find? symbol with
    | none => rfl
    | some other =>
        obtain ⟨old, at_, _⟩ := Option.map_eq_some_iff.mp (lawful.found found)
        have bound : other < graph.nodes.length := (List.getElem?_eq_some_iff.mp at_).1
        rw [Option.bind_some, Option.bind_some, node?_appendNode graph live, if_neg (by omega)]

theorem isDefined_setValue {index : Nat} {node : Node κ} (live : graph.node? index = some node)
    (value : Tensor κ) (symbol : Symbol) :
    (graph.setValue index value).isDefined symbol = graph.isDefined symbol := by
  rw [isDefined_eq, isDefined_eq, lawful.nodeOf?_setValue live]
  split
  · rename_i here
    rw [← here, lawful.nodeOf?_symbol live]
    rfl
  · rfl

theorem setValue {index : Nat} {node : Node κ} (live : graph.node? index = some node)
    {value : Tensor κ} (shape : value.shape = node.value.shape) (issued : value.Issued limit) :
    (graph.setValue index value).Lawful limit where
  found := by
    intro symbol other found
    have named := lawful.found found
    simp only [symbolAt?, Graph.setValue, modifyNode, List.getElem?_modify] at named ⊢
    rw [← named]
    cases graph.nodes[other]? with
    | none => rfl
    | some old => by_cases same : index = other <;> simp [same]
  current := by
    intro other found live'
    rw [node?_setValue] at live'
    split at live'
    · obtain ⟨old, before, rfl⟩ := Option.map_eq_some_iff.mp live'
      exact (lawful.current before : _)
    · exact lawful.current live'
  regular := by
    intro other found live'
    rw [node?_setValue] at live'
    split at live'
    · rename_i same
      subst same
      rw [live, Option.map_some, Option.some.injEq] at live'
      subst live'
      exact (lawful.regular live).withValue shape issued
    · exact lawful.regular live'
  apart := by
    intro symbol input
    rw [lawful.isDefined_setValue live]
    exact lawful.apart input
  inputs := lawful.inputs
  aliases := lawful.aliases

theorem removeNode (index : Nat) : (graph.removeNode index).Lawful limit where
  found := by
    intro symbol other found
    have named := lawful.found found
    simp only [symbolAt?, Graph.removeNode, modifyNode, List.getElem?_modify] at named ⊢
    rw [← named]
    cases graph.nodes[other]? with
    | none => rfl
    | some old => by_cases same : index = other <;> simp [same, Node.symbol]
  current := by
    intro other node live
    rw [node?_removeNode] at live
    split at live
    · cases live
    · exact lawful.current live
  regular := by
    intro other node live
    rw [node?_removeNode] at live
    split at live
    · cases live
    · exact lawful.regular live
  apart := by
    intro symbol input
    have undefined := lawful.apart input
    rw [isDefined_eq, nodeOf?_eq, Option.isSome_eq_false_iff, Option.isNone_iff_eq_none]
      at undefined ⊢
    change (graph.definitions.find? symbol).bind _ = none
    cases found : graph.definitions.find? symbol with
    | none => rfl
    | some other =>
        rw [found, Option.bind_some] at undefined
        rw [Option.bind_some, node?_removeNode, undefined]
        split <;> rfl
  inputs := lawful.inputs
  aliases := lawful.aliases

theorem appendNode {node : Node κ} (live : node.removed = false) (regular : node.Regular limit)
    (undefined : graph.isDefined node.symbol = false)
    (noInput : graph.isInput node.symbol = false) : (graph.appendNode node).Lawful limit where
  found := by
    intro symbol index found
    rw [find?_definitions_appendNode] at found
    split at found
    · rename_i here
      cases found
      simp [symbolAt?, Graph.appendNode, here]
    · have named := lawful.found found
      obtain ⟨old, at_, _⟩ := Option.map_eq_some_iff.mp named
      have bound : index < graph.nodes.length := (List.getElem?_eq_some_iff.mp at_).1
      rw [← named, symbolAt?, Graph.appendNode, List.getElem?_append_left bound, symbolAt?]
  current := by
    intro index other found
    rw [find?_definitions_appendNode]
    rw [node?_appendNode graph live] at found
    split at found
    · rename_i here
      cases found
      rw [if_pos rfl, here]
    · rw [if_neg, lawful.current found]
      intro same
      rw [same] at undefined
      have defined := isDefined_iff.mpr ⟨other, lawful.nodeOf?_symbol found⟩
      rw [undefined] at defined
      cases defined
  regular := by
    intro index other found
    rw [node?_appendNode graph live] at found
    split at found
    · cases found
      exact regular
    · exact lawful.regular found
  apart := by
    intro symbol input
    rw [isDefined_eq, lawful.nodeOf?_appendNode live, if_neg, ← isDefined_eq]
    · exact lawful.apart input
    · rintro rfl
      rw [show graph.isInput node.symbol = true from input] at noInput
      cases noInput
  inputs := lawful.inputs
  aliases := lawful.aliases

end Lawful

/-- The value, as it is and as it was handed in, reads every symbol at a place of its own. -/
structure Node.Placed (node : Node κ) : Prop where
  value : node.value.Placed
  registered : node.registered.Placed

def Placed (graph : Graph κ) : Prop :=
  ∀ ⦃index : Nat⦄ ⦃node : Node κ⦄, graph.node? index = some node → node.Placed

namespace Placed

variable {graph : Graph κ} (placed : graph.Placed)

include placed

theorem of_nodeOf? {symbol : Symbol} {node : Node κ} (found : graph.nodeOf? symbol = some node) :
    node.Placed := by
  obtain ⟨_, _, live⟩ := nodeOf?_eq_some.mp found
  exact placed live

theorem of_node? {other : Graph κ} (same : ∀ index, other.node? index = graph.node? index) :
    other.Placed :=
  fun _ _ live => placed (same _ ▸ live)

theorem setValue {index : Nat} {value : Tensor κ} (within : value.Placed) :
    (graph.setValue index value).Placed := by
  intro other node live
  rw [node?_setValue] at live
  split at live
  · obtain ⟨old, before, rfl⟩ := Option.map_eq_some_iff.mp live
    exact ⟨within, (placed before).registered⟩
  · exact placed live

theorem removeNode (index : Nat) : (graph.removeNode index).Placed := by
  intro other node live
  rw [node?_removeNode] at live
  split at live
  · cases live
  · exact placed live

theorem appendNode {node : Node κ} (live : node.removed = false) (within : node.Placed) :
    (graph.appendNode node).Placed := by
  intro index other found
  rw [node?_appendNode graph live] at found
  split at found
  · cases found
    exact within
  · exact placed found

end Placed

end Mechanism.Graph
