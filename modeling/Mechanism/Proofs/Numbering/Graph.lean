import Mechanism.Graph.Extraction
import Mechanism.Graph.Order
import Mechanism.Graph.Registration
import Mechanism.Proofs.Numbering.Chain

/-!
Graphs whose numbers are moved. Tables are looked up under the moved symbols, so the equations stay
where they are in all lists: the same ones are live, read each other, stand on one level and are
extracted.
-/

namespace Mechanism

variable {κ : Type} [Scalar κ]

instance : Numbered (Equation κ) := ⟨fun offset equation =>
  { equation with
    symbol := shift offset equation.symbol
    value := shift offset equation.value }⟩

namespace Equation

variable (offset : Nat) (equation : Equation κ)

@[simp] theorem shift_name : (shift offset equation).name = equation.name := rfl

@[simp] theorem shift_symbol :
    (shift offset equation).symbol = shift offset equation.symbol := rfl

@[simp] theorem shift_value : (shift offset equation).value = shift offset equation.value := rfl

@[simp] theorem shift_categories :
    (shift offset equation).categories = equation.categories := rfl

end Equation

namespace Graph

instance : Numbered (Node κ) := ⟨fun offset node =>
  ⟨shift offset node.equation, node.reads.map (shift offset), shift offset node.registered,
    node.removed⟩⟩

namespace Node

variable (offset : Nat) (node : Node κ)

@[simp] theorem shift_equation :
    (shift offset node).equation = shift offset node.equation := rfl

@[simp] theorem shift_reads : (shift offset node).reads = node.reads.map (shift offset) := rfl

@[simp] theorem shift_registered :
    (shift offset node).registered = shift offset node.registered := rfl

@[simp] theorem shift_removed : (shift offset node).removed = node.removed := rfl

@[simp] theorem shift_symbol : (shift offset node).symbol = shift offset node.symbol := rfl

@[simp] theorem shift_value : (shift offset node).value = shift offset node.value := rfl

@[simp] theorem ofEquation_shift (equation : Equation κ) (registered : Tensor κ) :
    ofEquation (shift offset equation) (shift offset registered) =
      shift offset (ofEquation equation registered) := by
  simp only [ofEquation, Equation.shift_value, Tensor.symbols_shift]
  rfl

@[simp] theorem withValue_shift (value : Tensor κ) :
    (shift offset node).withValue (shift offset value) = shift offset (node.withValue value) := by
  simp only [withValue, Tensor.symbols_shift]
  rfl

end Node

instance : Numbered (Cached κ) := ⟨fun offset cached =>
  ⟨shift offset cached.value, cached.revision⟩⟩

instance : Numbered (Store κ) := ⟨fun offset store =>
  { store with
    bindings := shift offset store.bindings
    cache := shift offset store.cache }⟩

namespace Store

variable (offset : Nat) (store : Store κ) (symbol : Symbol)

@[simp] theorem shift_bindings :
    (shift offset store).bindings = shift offset store.bindings := rfl

@[simp] theorem shift_cache : (shift offset store).cache = shift offset store.cache := rfl

@[simp] theorem shift_revision : (shift offset store).revision = store.revision := rfl

@[simp] theorem shift_evaluations : (shift offset store).evaluations = store.evaluations := rfl

@[simp] theorem shift_empty : shift offset (empty : Store κ) = empty := rfl

@[simp] theorem binding?_shift :
    (shift offset store).binding? (shift offset symbol) =
      (store.binding? symbol).map (shift offset) := by
  simp [binding?]

@[simp] theorem cached?_shift :
    (shift offset store).cached? (shift offset symbol) =
      (store.cached? symbol).map (shift offset) := by
  simp only [cached?, shift_cache, Table.find?_shift, Option.map_map]
  rfl

@[simp] theorem cachedRevision?_shift :
    (shift offset store).cachedRevision? (shift offset symbol) = store.cachedRevision? symbol := by
  simp only [cachedRevision?, shift_cache, Table.find?_shift, Option.map_map]
  rfl

@[simp] theorem isCached_shift :
    (shift offset store).isCached (shift offset symbol) = store.isCached symbol := by
  simp [isCached]

@[simp] theorem bind_shift (value : Tensor κ) :
    (shift offset store).bind (shift offset symbol) (shift offset value) =
      shift offset (store.bind symbol value) := by
  simp only [bind, shift_bindings, Table.insert_shift]
  rfl

@[simp] theorem insert_shift (value : Tensor κ) :
    (shift offset store).insert (shift offset symbol) (shift offset value) =
      shift offset (store.insert symbol value) := by
  have entry : (⟨shift offset value, store.revision⟩ : Cached κ) =
      shift offset ⟨value, store.revision⟩ := rfl
  simp only [insert, shift_cache, shift_revision, entry, Table.insert_shift]
  rfl

@[simp] theorem evict_shift :
    (shift offset store).evict (shift offset symbol) = shift offset (store.evict symbol) := by
  simp only [evict, shift_cache, Table.erase_shift]
  rfl

@[simp] theorem clearCache_shift : (shift offset store).clearCache = shift offset store.clearCache :=
  rfl

@[simp] theorem lookup_shift (atom : Atom) :
    (shift offset store).lookup (shift offset atom) = (store.lookup atom).map (shift offset) := by
  simp only [lookup, Atom.symbol_shift, binding?_shift, cached?_shift, Atom.flatIndex_shift]
  cases store.binding? atom.symbol <;> cases store.cached? atom.symbol <;> simp

end Store

end Graph

instance : Numbered (Graph κ) := ⟨fun offset graph =>
  { graph with
    nodes := graph.nodes.map (shift offset)
    definitions := shift offset graph.definitions
    inputs := shift offset graph.inputs
    aliases := shift offset graph.aliases
    consumers := graph.consumers.map (shift offset)
    store := shift offset graph.store }⟩

namespace Graph

variable (offset : Nat) (graph : Graph κ)

@[simp] theorem shift_settings : (shift offset graph).settings = graph.settings := rfl

@[simp] theorem shift_simplifier : (shift offset graph).simplifier = graph.simplifier := rfl

@[simp] theorem shift_nodes : (shift offset graph).nodes = graph.nodes.map (shift offset) := rfl

@[simp] theorem shift_definitions :
    (shift offset graph).definitions = shift offset graph.definitions := rfl

@[simp] theorem shift_inputs : (shift offset graph).inputs = shift offset graph.inputs := rfl

@[simp] theorem shift_aliases : (shift offset graph).aliases = shift offset graph.aliases := rfl

@[simp] theorem shift_consumers :
    (shift offset graph).consumers = graph.consumers.map (shift offset) := rfl

@[simp] theorem shift_levels : (shift offset graph).levels = graph.levels := rfl

@[simp] theorem shift_built : (shift offset graph).built = graph.built := rfl

@[simp] theorem shift_nextTemporary :
    (shift offset graph).nextTemporary = graph.nextTemporary := rfl

@[simp] theorem shift_store : (shift offset graph).store = shift offset graph.store := rfl

@[simp] theorem shift_ofSettings (settings : Settings) (simplifier : Simplifier κ) :
    shift offset (ofSettings settings simplifier) = ofSettings settings simplifier := rfl

variable (symbol : Symbol) (index : Nat)

@[simp] theorem node?_shift :
    (shift offset graph).node? index = (graph.node? index).map (shift offset) := by
  simp [node?, Option.filter_map, Function.comp_def]

@[simp] theorem liveIndex?_shift :
    (shift offset graph).liveIndex? (shift offset symbol) = graph.liveIndex? symbol := by
  simp [liveIndex?]

@[simp] theorem liveIndices_shift : (shift offset graph).liveIndices = graph.liveIndices := by
  simp [liveIndices]

@[simp] theorem liveNodes_shift :
    (shift offset graph).liveNodes = graph.liveNodes.map (shift offset) := by
  simp [liveNodes, List.filter_map, Function.comp_def]

@[simp] theorem equations_shift :
    (shift offset graph).equations = graph.equations.map (shift offset) := by
  simp [equations, Function.comp_def]

@[simp] theorem equation?_shift :
    (shift offset graph).equation? (shift offset symbol) =
      (graph.equation? symbol).map (shift offset) := by
  simp only [equation?, liveIndex?_shift, node?_shift]
  cases graph.liveIndex? symbol with
  | none => rfl
  | some index => cases found : graph.node? index <;> simp [found]

@[simp] theorem size_shift : (shift offset graph).size = graph.size := by
  simp [size]

@[simp] theorem isInput_shift :
    (shift offset graph).isInput (shift offset symbol) = graph.isInput symbol := by
  simp [isInput]

@[simp] theorem isDefined_shift :
    (shift offset graph).isDefined (shift offset symbol) = graph.isDefined symbol := by
  simp [isDefined]

@[simp] theorem symbolAt?_shift :
    (shift offset graph).symbolAt? index = (graph.symbolAt? index).map (shift offset) := by
  simp [symbolAt?, Function.comp_def]

@[simp] theorem levelSymbols_shift :
    (shift offset graph).levelSymbols = graph.levelSymbols.map (List.map (shift offset)) := by
  simp [levelSymbols, List.map_filterMap, Function.comp_def]

@[simp] theorem order_shift : (shift offset graph).order = graph.order.map (shift offset) := by
  simp [order, List.map_filterMap, Function.comp_def]

@[simp] theorem dependencies_shift :
    (shift offset graph).dependencies index = graph.dependencies index := by
  simp only [dependencies, shift_nodes, List.getElem?_map]
  cases graph.nodes[index]? with
  | none => rfl
  | some node => simp [List.filterMap_map]

theorem closureWith_shift {α : Type} [Numbered α] [DecidableEq α] [Faithful α]
    {next next' : α → List α}
    (same : ∀ item, next' (shift offset item) = (next item).map (shift offset)) (fuel : Nat)
    (reached frontier : List α) :
    closureWith next' fuel (reached.map (shift offset)) (frontier.map (shift offset)) =
      (closureWith next fuel reached frontier).map (shift offset) := by
  induction fuel generalizing reached frontier with
  | zero => rfl
  | succ fuel ih =>
      have following := flatMap_shift offset frontier fun item _ => same item
      have fresh : ((Grouping.distinct (frontier.flatMap next)).map (shift offset)).filter
          (fun item => !(reached.map (shift offset)).contains item) =
            ((Grouping.distinct (frontier.flatMap next)).filter
              fun item => !reached.contains item).map (shift offset) := by
        rw [List.filter_map]
        simp [Function.comp_def]
      simp only [closureWith, following, Grouping.distinct_shift, fresh]
      cases (Grouping.distinct (frontier.flatMap next)).filter
          fun item => !reached.contains item with
      | nil => rfl
      | cons head tail =>
          have rest := ih (reached ++ head :: tail) (head :: tail)
          simpa using rest

@[simp] theorem closure_shift (roots : List Nat) :
    (shift offset graph).closure roots = graph.closure roots := by
  have same : (shift offset graph).dependencies = graph.dependencies :=
    funext (dependencies_shift offset graph)
  simp [closure, same]

theorem modifyNode_shift {change change' : Node κ → Node κ}
    (same : ∀ node, change' (shift offset node) = shift offset (change node)) :
    (shift offset graph).modifyNode index change' = shift offset (graph.modifyNode index change) := by
  have nodes : (graph.nodes.map (shift offset)).modify index change' =
      (graph.nodes.modify index change).map (shift offset) := by
    refine List.ext_getElem? fun place => ?_
    simp only [List.getElem?_modify, List.getElem?_map]
    cases graph.nodes[place]? <;> simp
    split <;> simp [same]
  simp only [modifyNode, shift_nodes, nodes]
  rfl

@[simp] theorem removeNode_shift :
    (shift offset graph).removeNode index = shift offset (graph.removeNode index) :=
  modifyNode_shift offset graph index fun _ => rfl

def readings (graph : Graph κ) : List (Symbol × Nat) :=
  graph.nodes.zipIdx.flatMap fun (node, index) =>
    if node.removed then [] else node.reads.map fun symbol => (symbol, index)

theorem readings_shift : readings (shift offset graph) = (readings graph).map (shift offset) := by
  rw [readings, readings, shift_nodes, List.zipIdx_map, List.flatMap_map, List.map_flatMap]
  refine List.flatMap_congr fun pair _ => ?_
  cases removed : pair.1.removed <;> simp [removed, Function.comp_def]

@[simp] theorem relink_shift : (shift offset graph).relink = shift offset graph.relink := by
  have linked (graph : Graph κ) :
      graph.relink = { graph with consumers := Grouping.ofPairs (readings graph) } := rfl
  rw [linked, linked, readings_shift, Grouping.ofPairs_shift]
  rfl

@[simp] theorem readersOf_shift :
    (shift offset graph).readersOf (shift offset symbol) = graph.readersOf symbol := by
  simp only [readersOf, shift_consumers, List.find?_map, Function.comp_def, shift_pair, shift_beq,
    Option.map_map]
  cases graph.consumers.find? fun entry => entry.1 == symbol <;> simp

@[simp] theorem operations_shift : (shift offset graph).operations = graph.operations := by
  simp [operations, Function.comp_def]

@[simp] theorem resolveAliases_shift (value : Tensor κ) :
    (shift offset graph).resolveAliases (shift offset value) =
      shift offset (graph.resolveAliases value) := by
  simp only [resolveAliases, shift_aliases, Table.isEmpty_shift]
  rw [shift_ite]
  refine ite_congr rfl (fun _ => rfl) fun _ => ?_
  refine Tensor.substitute_shift offset value fun atom => ?_
  simp only [Atom.symbol_shift, Table.find?_shift, Atom.flatIndex_shift]
  cases graph.aliases.find? atom.symbol <;> simp

@[simp] theorem readingSymbols_shift :
    (shift offset graph).readingSymbols (shift offset symbol) =
      (graph.readingSymbols symbol).map (shift offset) := by
  simp [readingSymbols, List.map_filterMap]

@[simp] theorem dependents_shift :
    (shift offset graph).dependents (shift offset symbol) =
      (graph.dependents symbol).map (shift offset) := by
  have closed := closureWith_shift offset (readingSymbols_shift offset graph)
    (graph.nodes.length + 1) [] [symbol]
  simpa [dependents] using closed

@[simp] theorem invalidate_shift :
    (shift offset graph).invalidate (shift offset symbol) =
      shift offset (graph.invalidate symbol) := by
  have evicted := foldl_shift offset (fun store symbol => Store.evict_shift offset store symbol)
    (graph.dependents symbol) graph.store
  simp only [invalidate, dependents_shift, shift_store, evicted]
  rfl

@[simp] theorem bindInput_shift (value : Tensor κ) :
    bindInput (shift offset symbol) (shift offset value) (shift offset graph) =
      shift offset (bindInput symbol value graph) := by
  have bound : ({ shift offset graph with
      store := (shift offset graph.store).bind (shift offset symbol) (shift offset value) } :
        Graph κ) = shift offset { graph with store := graph.store.bind symbol value } := by
    rw [Store.bind_shift]
    rfl
  simp only [bindInput, isInput_shift, Symbol.shift_name, Tensor.shift_shape, Symbol.shift_shape,
    shift_store, bound, invalidate_shift]
  split
  · rfl
  · split <;> rfl

@[simp] theorem addInput_shift (categories : CategorySet) :
    addInput (shift offset symbol) categories (shift offset graph) =
      shift offset (addInput symbol categories graph) := by
  simp only [addInput, Symbol.shift_name, equation?_shift, shift_inputs, Table.find?_shift,
    Table.insert_plain]
  split
  · rfl
  · cases graph.equation? symbol with
    | some equation => rfl
    | none =>
        cases graph.inputs.find? symbol with
        | none => rfl
        | some existing =>
            simp only [Option.map_none, Option.map_some, shift_plain, id_eq]
            split <;> rfl

@[simp] theorem appendNode_shift (node : Node κ) :
    (shift offset graph).appendNode (shift offset node) = shift offset (graph.appendNode node) := by
  have appended : graph.nodes.map (shift offset) ++ [shift offset node] =
      (graph.nodes ++ [node]).map (shift offset) := by
    simp
  simp only [appendNode, shift_nodes, shift_definitions, Node.shift_symbol, List.length_map,
    Table.insert_plain, appended]
  rfl

@[simp] theorem addEquation_shift (name : String) (value : Tensor κ) (categories : CategorySet) :
    addEquation name (shift offset symbol) (shift offset value) categories (shift offset graph) =
      shift offset (addEquation name symbol value categories graph) := by
  have linked : ∀ reads : List Symbol, (reads.map (shift offset)).foldl
      (fun consumers read => Grouping.insert read graph.nodes.length consumers)
        (graph.consumers.map (shift offset)) =
          (reads.foldl (fun consumers read => Grouping.insert read graph.nodes.length consumers)
            graph.consumers).map (shift offset) := by
    intro reads
    refine foldl_shift offset (fun consumers read => ?_) reads graph.consumers
    simpa using Grouping.insert_shift offset read graph.nodes.length consumers
  have node : Node.ofEquation ⟨name, shift offset symbol, shift offset (graph.resolveAliases value),
      categories⟩ (shift offset value) =
        shift offset (Node.ofEquation ⟨name, symbol, graph.resolveAliases value, categories⟩ value) :=
    Node.ofEquation_shift offset ⟨name, symbol, graph.resolveAliases value, categories⟩ value
  unfold addEquation
  simp only [resolveAliases_shift, Tensor.shift_shape, Symbol.shift_shape, Symbol.shift_name,
    isInput_shift, liveIndex?_shift, node]
  rw [shift_ite]
  refine ite_congr rfl (fun _ => rfl) fun _ => ?_
  rw [shift_ite]
  refine ite_congr rfl (fun _ => rfl) fun _ => ?_
  rw [shift_ite]
  refine ite_congr rfl (fun _ => rfl) fun _ => ?_
  have live : (graph.liveIndex? symbol >>= (shift offset graph).node?) =
      (graph.liveIndex? symbol >>= graph.node?).map (shift offset) := by
    cases graph.liveIndex? symbol <;> simp
  rw [live]
  cases graph.liveIndex? symbol >>= graph.node? with
  | some existing =>
      simp only [Option.map_some, Node.shift_registered, Node.shift_value, shift_inj,
        Node.shift_equation, Equation.shift_categories]
      rw [shift_ite]
      rfl
  | none =>
      simp only [Option.map_none, appendNode_shift, Node.shift_reads, shift_nodes, List.length_map,
        shift_consumers, linked, shift_aliases, Table.erase_shift]
      rw [shift_ok, ← invalidate_shift]
      rfl

@[simp] theorem findLevels_shift : (shift offset graph).findLevels = graph.findLevels := by
  have same : (shift offset graph).dependencies = graph.dependencies :=
    funext (dependencies_shift offset graph)
  have traced : (shift offset graph).traceCycle = graph.traceCycle := by
    funext stuck
    cases stuck <;> simp [traceCycle, same]
  simp [findLevels, same, traced]

@[simp] theorem cycleError_shift (cycle : List Nat) :
    (shift offset graph).cycleError cycle = shift offset (graph.cycleError cycle) := by
  have names : (cycle.filterMap (shift offset graph).symbolAt?).map Symbol.name =
      (cycle.filterMap graph.symbolAt?).map Symbol.name := by
    rw [List.map_filterMap, List.map_filterMap]
    simp [Function.comp_def]
  rw [cycleError, names]
  rfl

end Graph

instance : Numbered ExternalInput := ⟨fun offset input =>
  ⟨shift offset input.symbol, input.shape, input.categories⟩⟩

instance : Numbered (EquationList κ) := ⟨fun offset list =>
  ⟨list.equations.map (shift offset), list.inputs.map (shift offset)⟩⟩

namespace EquationList

variable (offset : Nat) (list : EquationList κ) (symbol : Symbol)

@[simp] theorem shift_equations :
    (shift offset list).equations = list.equations.map (shift offset) := rfl

@[simp] theorem shift_inputs : (shift offset list).inputs = list.inputs.map (shift offset) := rfl

@[simp] theorem length_shift : (shift offset list).length = list.length := by
  simp [length]

@[simp] theorem position?_shift :
    (shift offset list).position? (shift offset symbol) = list.position? symbol := by
  simp [position?, List.findIdx?_map, Function.comp_def]

@[simp] theorem find?_shift :
    (shift offset list).find? (shift offset symbol) = (list.find? symbol).map (shift offset) := by
  simp [find?, List.find?_map, Function.comp_def]

end EquationList

namespace Graph

instance : Numbered Reduction := ⟨fun _ => id⟩
instance : Plain Reduction := ⟨fun _ => rfl⟩

variable (offset : Nat) (graph : Graph κ)

@[simp] theorem roots_shift (wanted unwanted : CategorySet) :
    (shift offset graph).roots wanted unwanted = graph.roots wanted unwanted := by
  simp [roots, Option.any_map]

@[simp] theorem needed_shift (wanted unwanted : CategorySet) :
    (shift offset graph).needed wanted unwanted = shift offset (graph.needed wanted unwanted) := by
  simp only [needed, shift_built, roots_shift, closure_shift]
  split
  · rfl
  · cases graph.roots wanted unwanted with
    | nil => rfl
    | cons first rest => simp

@[simp] theorem extract_shift (output excluded : CategorySet) :
    (shift offset graph).extract output excluded = shift offset (graph.extract output excluded) := by
  refine bind_shift offset (needed_shift offset graph output excluded) fun needed => ?_
  have nodes : ∀ order : List Nat,
      order.filterMap (fun index => (shift offset graph).nodes[index]?) =
        (order.filterMap fun index => graph.nodes[index]?).map (shift offset) := by
    intro order
    simp [List.map_filterMap]
  have reads : ∀ nodes : List (Node κ),
      ((nodes.map (shift offset)).flatMap Node.reads).filter (shift offset graph).isInput =
        ((nodes.flatMap Node.reads).filter graph.isInput).map (shift offset) := by
    intro nodes
    rw [flatMap_shift offset nodes fun node _ => Node.shift_reads offset node, List.filter_map]
    simp [Function.comp_def]
  have inputs : ∀ symbols : List Symbol, (symbols.map (shift offset)).filterMap (fun symbol =>
      ((shift offset graph).inputs.find? symbol).map fun categories =>
        (⟨symbol, symbol.shape, categories⟩ : ExternalInput)) =
          (symbols.filterMap fun symbol => (graph.inputs.find? symbol).map fun categories =>
            (⟨symbol, symbol.shape, categories⟩ : ExternalInput)).map (shift offset) := by
    intro symbols
    rw [List.filterMap_map, List.map_filterMap]
    refine List.filterMap_congr fun symbol _ => ?_
    simp only [Function.comp_apply, shift_inputs, Table.find?_shift, Option.map_map]
    rfl
  have equations : ∀ nodes : List (Node κ), (nodes.map (shift offset)).map Node.equation =
      (nodes.map Node.equation).map (shift offset) := by
    intro nodes
    simp [Function.comp_def]
  simp only [shift_levels, shift_list, shift_plain, List.map_id, nodes, reads,
    Grouping.distinct_shift, inputs, equations]
  rfl

@[simp] theorem dropNode_shift (index : Nat) :
    (shift offset graph).dropNode index = shift offset (graph.dropNode index) := by
  simp only [dropNode, symbolAt?_shift, removeNode_shift, shift_store]
  cases graph.symbolAt? index with
  | none => rfl
  | some symbol =>
      simp only [Option.map_some, Store.evict_shift]
      rfl

@[simp] theorem reduce_shift (kept : CategorySet) :
    (shift offset graph).reduce kept = shift offset (graph.reduce kept) := by
  refine bind_shift offset (needed_shift offset graph kept .none) fun needed => ?_
  have dropped := foldl_shift offset (fun graph index => dropNode_shift offset graph index)
    (graph.liveIndices.filter fun index => !needed.contains index) graph
  simp only [shift_list, shift_plain, List.map_id, liveIndices_shift, shift_levels] at dropped ⊢
  rw [dropped]
  simp only [pure, Except.pure, shift_ok, shift_pair, ← relink_shift]
  rfl

end Graph

end Mechanism
