import Mechanism.Proofs.Graph.Evaluation
import Mechanism.Proofs.Graph.Levels
import Mechanism.Proofs.Search

/-!
The table of readers, and the invariant of a graph between two actions. The table lists the live
equations that read a symbol, so that a change of the symbol forgets the cached values of all that
depends on it and of nothing else; inputs, bindings and definitions keep the invariant.
-/

open Relation (TransGen)

namespace Mechanism.Graph

variable {κ : Type} [Scalar κ] {limit : Nat} {graph : Graph κ}

/-- The live definition of the second symbol reads the first one. -/
def ReadBy (graph : Graph κ) (read reader : Symbol) : Prop :=
  ∃ node, graph.nodeOf? reader = some node ∧ read ∈ node.reads

def Linked (graph : Graph κ) : Prop :=
  ∀ symbol index, index ∈ graph.readersOf symbol ↔
    ∃ node, graph.node? index = some node ∧ symbol ∈ node.reads

theorem readersOf_eq (graph : Graph κ) (symbol : Symbol) :
    graph.readersOf symbol = Grouping.valuesIn graph.consumers symbol := rfl

theorem relink_linked (graph : Graph κ) : graph.relink.Linked := by
  intro symbol index
  rw [readersOf_eq]
  change index ∈ Grouping.valuesIn (Grouping.ofPairs _) symbol ↔ _
  rw [Grouping.valuesIn_ofPairs, Grouping.mem_valuesOf, List.mem_flatMap]
  constructor
  · rintro ⟨⟨node, position⟩, member, paired⟩
    rw [List.mem_zipIdx_iff_getElem?] at member
    simp only at paired member
    split at paired
    · cases paired
    · rename_i live
      obtain ⟨read, among, same⟩ := List.mem_map.mp paired
      cases same
      exact ⟨node, node?_eq_some.mpr ⟨member, by simpa using live⟩, among⟩
  · rintro ⟨node, live, among⟩
    obtain ⟨found, notRemoved⟩ := node?_eq_some.mp live
    refine ⟨(node, index), List.mem_zipIdx_iff_getElem?.mpr found, ?_⟩
    simp only [notRemoved, Bool.false_eq_true, if_false]
    exact List.mem_map_of_mem among

theorem valuesIn_foldl_insert (index : Nat) (reads : List Symbol)
    (consumers : List (Symbol × List Nat)) (symbol : Symbol) :
    Grouping.valuesIn
        (reads.foldl (fun consumers read => Grouping.insert read index consumers) consumers) symbol =
      Grouping.valuesIn consumers symbol ++ List.replicate (reads.count symbol) index := by
  induction reads generalizing consumers with
  | nil => simp
  | cons head tail ih =>
      rw [List.foldl_cons, ih, Grouping.valuesIn_insert]
      by_cases same : head = symbol
      · subst same
        simp [List.replicate_succ]
      · simp [same]

theorem mem_readingSymbols (lawful : graph.Lawful limit) (linked : graph.Linked)
    {symbol reader : Symbol} :
    reader ∈ graph.readingSymbols symbol ↔ graph.ReadBy symbol reader := by
  simp only [readingSymbols, List.mem_filterMap, linked symbol, ReadBy, lawful.nodeOf?_iff]
  constructor
  · rintro ⟨index, ⟨node, live, reads⟩, named⟩
    rw [symbolAt?_of_node? live, Option.some.injEq] at named
    exact ⟨node, ⟨index, live, named⟩, reads⟩
  · rintro ⟨node, ⟨index, live, named⟩, reads⟩
    exact ⟨index, ⟨node, live, reads⟩, by rw [symbolAt?_of_node? live, named]⟩

theorem mem_dependents (lawful : graph.Lawful limit) (linked : graph.Linked)
    {symbol other : Symbol} :
    other ∈ graph.dependents symbol ↔ TransGen graph.ReadBy symbol other := by
  have bounded : ∀ item, ∀ target ∈ graph.readingSymbols item,
      target ∈ graph.nodes.map Node.symbol := by
    intro item target member
    obtain ⟨index, _, named⟩ := List.mem_filterMap.mp member
    obtain ⟨node, found, same⟩ := Option.map_eq_some_iff.mp named
    exact List.mem_map.mpr ⟨node, List.mem_of_getElem? found, same⟩
  have step : Search.Step graph.readingSymbols = graph.ReadBy := by
    funext source target
    exact propext (mem_readingSymbols lawful linked)
  have found := Search.mem_closureWith_start bounded symbol other
  rwa [List.length_map, step] at found

theorem cached?_foldl_evict (symbols : List Symbol) (store : Store κ) (symbol : Symbol) :
    (symbols.foldl Store.evict store).cached? symbol =
      if symbol ∈ symbols then none else store.cached? symbol := by
  induction symbols generalizing store with
  | nil => simp
  | cons head tail ih =>
      rw [List.foldl_cons, ih, Store.cached?_evict]
      by_cases later : symbol ∈ tail
      · simp [later]
      · by_cases same : head = symbol <;> simp [later, same, Ne.symm]

theorem bindings_foldl_evict (symbols : List Symbol) (store : Store κ) :
    (symbols.foldl Store.evict store).bindings = store.bindings := by
  induction symbols generalizing store with
  | nil => rfl
  | cons head tail ih => exact ih _

theorem cached?_invalidate (lawful : graph.Lawful limit) (linked : graph.Linked)
    (symbol other : Symbol) :
    (TransGen graph.ReadBy symbol other → (graph.invalidate symbol).store.cached? other = none) ∧
      (¬TransGen graph.ReadBy symbol other →
        (graph.invalidate symbol).store.cached? other = graph.store.cached? other) := by
  rw [← mem_dependents lawful linked]
  change (_ → ((graph.dependents symbol).foldl Store.evict graph.store).cached? other = none) ∧
    (_ → ((graph.dependents symbol).foldl Store.evict graph.store).cached? other = _)
  rw [cached?_foldl_evict]
  exact ⟨fun member => if_pos member, fun absent => if_neg absent⟩

/-- A change that concerns one symbol leaves a coherent cache, when all that depends on the symbol
is forgotten. -/
theorem Coherent.invalidate {before after : Graph κ} {symbol : Symbol} (lawful : after.Lawful limit)
    (oldLawful : before.Lawful limit) (linked : after.Linked)
    (coherent : before.Coherent before.store)
    (uncached : before.store.cached? symbol = none)
    (nodes : ∀ other, other ≠ symbol → after.nodeOf? other = before.nodeOf? other)
    (cached : ∀ other, after.store.cached? other = before.store.cached? other)
    (bindings : ∀ other, other ≠ symbol →
      after.store.binding? other = before.store.binding? other)
    (inputs : ∀ other value, after.store.binding? other = some value → after.isInput other = true) :
    (after.invalidate symbol).Coherent (after.invalidate symbol).store := by
  have sameBindings : (after.invalidate symbol).store.bindings = after.store.bindings :=
    bindings_foldl_evict _ _
  have binding? : ∀ other,
      (after.invalidate symbol).store.binding? other = after.store.binding? other := by
    intro other
    rw [Store.binding?, sameBindings, Store.binding?]
  constructor
  · intro other value bound
    rw [binding?] at bound
    exact inputs other value bound
  · intro reader value found
    obtain ⟨gone, kept⟩ := cached?_invalidate lawful linked symbol reader
    have independent : ¬TransGen after.ReadBy symbol reader := by
      intro depends
      rw [gone depends] at found
      cases found
    rw [kept independent, cached] at found
    have other : reader ≠ symbol := by
      rintro rfl
      rw [uncached] at found
      cases found
    obtain ⟨node, live, rfl, known⟩ := coherent.cached found
    have liveAfter : after.nodeOf? reader = some node := by rw [nodes reader other, live]
    have apart : ∀ read ∈ node.reads, read ≠ symbol ∧ ¬TransGen after.ReadBy symbol read := by
      intro read member
      constructor
      · rintro rfl
        exact independent (TransGen.single ⟨node, liveAfter, member⟩)
      · intro depends
        exact independent (depends.tail ⟨node, liveAfter, member⟩)
    have still : ∀ read ∈ node.reads, (after.invalidate symbol).store.cached? read =
        before.store.cached? read := by
      intro read member
      rw [(cached?_invalidate lawful linked symbol read).2 (apart read member).2, cached]
    refine ⟨node, liveAfter, ?_, ?_⟩
    · apply Tensor.substitute_congr
      intro atom member
      have reads : atom.symbol ∈ node.reads := (oldLawful.regular_of_nodeOf? live).mem_reads member
      rw [Store.lookup, Store.lookup, binding?, bindings _ (apart _ reads).1, still _ reads]
    · intro read member defined
      have definedBefore : before.isDefined read = true := by
        rw [isDefined_eq, ← nodes read (apart read member).1, ← isDefined_eq]
        exact defined
      obtain ⟨value, old⟩ := Store.isCached_iff.mp (known read member definedBefore)
      exact Store.isCached_iff.mpr ⟨value, by rw [still read member, old]⟩

variable {after : Graph κ}

/-- Everything that is read is settled, and the levels list the live equations in order. -/
structure Leveled (graph : Graph κ) : Prop where
  settled : graph.Settled
  ordered : ∃ level, graph.levels.flatten.Perm graph.liveIndices ∧
    graph.levels.flatten.Pairwise (Earlier level) ∧
      IsLevel graph.dependencies graph.liveIndices level

structure Valid (limit : Nat) (graph : Graph κ) : Prop extends Lawful limit graph where
  linked : graph.Linked
  coherent : graph.Coherent graph.store
  leveled : graph.built = true → graph.Leveled

theorem Valid.mono (valid : graph.Valid limit) {more : Nat} (le : limit ≤ more) :
    graph.Valid more :=
  { valid.toLawful.mono le with
    linked := valid.linked
    coherent := valid.coherent
    leveled := valid.leveled }

theorem Valid.withStore (valid : graph.Valid limit) {store : Store κ}
    (coherent : graph.Coherent store) : ({ graph with store := store } : Graph κ).Valid limit where
  toLawful := valid.toLawful.congr rfl rfl rfl rfl
  linked := valid.linked
  coherent := ⟨coherent.bound, coherent.cached⟩
  leveled := by
    intro built
    obtain ⟨settled, ordered⟩ := valid.leveled built
    exact ⟨settled, ordered⟩

theorem valid_ofSettings (settings : Settings) (simplifier : Simplifier κ) :
    (ofSettings settings simplifier).Valid limit where
  found := nofun
  current := nofun
  regular := nofun
  apart := nofun
  inputs := nofun
  aliases := nofun
  linked := by
    intro symbol index
    simp [readersOf, ofSettings, node?]
  coherent := ⟨nofun, nofun⟩
  leveled := nofun

theorem bindInput_ok {symbol : Symbol} {value : Tensor κ}
    (bound : Graph.bindInput symbol value graph = .ok after) :
    graph.isInput symbol = true ∧
      after = ({ graph with store := graph.store.bind symbol value } : Graph κ).invalidate symbol := by
  unfold Graph.bindInput at bound
  split at bound
  · cases bound
  split at bound
  · cases bound
  · rename_i input _
    cases bound
    exact ⟨by simpa using input, rfl⟩

theorem bindInput_misshapen {symbol : Symbol} {value : Tensor κ}
    (input : graph.isInput symbol = true) (shape : value.shape ≠ symbol.shape) :
    bindInput symbol value graph = .error (.shapeMismatch symbol.name symbol.shape value.shape) := by
  simp [bindInput, input, shape]

theorem bindInput_fitting {symbol : Symbol} {value : Tensor κ}
    (input : graph.isInput symbol = true) (shape : value.shape = symbol.shape) :
    bindInput symbol value graph =
      .ok (({ graph with store := graph.store.bind symbol value } : Graph κ).invalidate symbol) := by
  simp [bindInput, input, shape]

theorem addInput_ok {symbol : Symbol} {categories : CategorySet}
    (added : Graph.addInput symbol categories graph = .ok after) :
    after = graph ∨ graph.isDefined symbol = false ∧
      after = { graph with inputs := graph.inputs.insert symbol categories, built := false } := by
  unfold Graph.addInput at added
  split at added
  · cases added
  split at added
  · cases added
  · split at added
    · cases added
      exact Or.inl rfl
    · cases added
  · rename_i missing _
    cases added
    rw [equation?_eq, Option.map_eq_none_iff] at missing
    exact Or.inr ⟨by rw [isDefined_eq, missing]; rfl, rfl⟩

theorem isInput_insert {symbol other : Symbol} {categories : CategorySet} :
    ({ graph with inputs := graph.inputs.insert symbol categories, built := false } :
      Graph κ).isInput other = true ↔ other = symbol ∨ graph.isInput other = true := by
  rw [isInput, Table.contains, Table.find?_insert]
  by_cases same : symbol = other
  · simp [same]
  · simp [same, Ne.symm same, isInput, Table.contains]

theorem Valid.bindInput (valid : graph.Valid limit) {symbol : Symbol} {value : Tensor κ}
    (bound : Graph.bindInput symbol value graph = .ok after) : after.Valid limit := by
  obtain ⟨isInput, rfl⟩ := bindInput_ok bound
  have lawful : ({ graph with store := graph.store.bind symbol value } : Graph κ).Lawful limit :=
    valid.toLawful.congr rfl rfl rfl rfl
  have kept := Coherent.invalidate lawful valid.toLawful valid.linked
    valid.coherent (valid.coherent.cached?_eq_none (valid.apart isInput)) (fun _ _ => rfl)
    (fun _ => rfl) (by
      intro other differs
      exact (Table.find?_insert _ _ _ _).trans (if_neg (Ne.symm differs))) (by
      intro other old found
      rw [Store.binding?, Store.bind, Table.find?_insert] at found
      split at found
      · rename_i same
        exact same ▸ isInput
      · exact valid.coherent.bound found)
  exact valid.withStore ⟨kept.bound, kept.cached⟩

theorem Valid.addInput (valid : graph.Valid limit) {symbol : Symbol} {categories : CategorySet}
    (issued : symbol.number < limit) (added : Graph.addInput symbol categories graph = .ok after) :
    after.Valid limit := by
  rcases addInput_ok added with rfl | ⟨undefined, rfl⟩
  · exact valid
  constructor
  · refine ⟨valid.found, valid.current, valid.regular, ?_, ?_, valid.aliases⟩
    · intro other found
      rcases isInput_insert.mp found with rfl | old
      · exact undefined
      · exact valid.apart old
    · intro other found
      rcases isInput_insert.mp found with rfl | old
      · exact issued
      · exact valid.inputs old
  · exact valid.linked
  · exact ⟨fun found => isInput_insert.mpr (Or.inr (valid.coherent.bound found)),
      valid.coherent.cached⟩
  · intro built
    cases built

theorem Lawful.issued_alias (lawful : graph.Lawful limit) {symbol : Symbol} {target : Tensor κ}
    (found : graph.aliases.find? symbol = some target) : target.Issued limit := by
  obtain ⟨other, stands⟩ := lawful.aliases found
  rw [stands.target_eq]
  exact Tensor.issued_ofSymbol stands.issued.2

theorem Lawful.placed_alias (lawful : graph.Lawful limit) {symbol : Symbol} {target : Tensor κ}
    (found : graph.aliases.find? symbol = some target) : target.Placed := by
  obtain ⟨other, stands⟩ := lawful.aliases found
  rw [stands.target_eq]
  exact Tensor.placed_ofSymbol other

def standIn (graph : Graph κ) (atom : Atom) : Option (Expr κ) := do
  let target ← graph.aliases.find? atom.symbol
  (target.entryAt atom.flatIndex).toOption

theorem resolveAliases_eq (graph : Graph κ) (value : Tensor κ) :
    graph.resolveAliases value =
      if graph.aliases.isEmpty then value else value.substitute graph.standIn := rfl

theorem replacementOf_standIn_none {atom : Atom} (absent : graph.aliases.find? atom.symbol = none) :
    (Expr.replacementOf graph.standIn atom : Expr κ) = .atom atom := by
  simp [Expr.replacementOf, standIn, absent]

/-- An atom of a removed symbol becomes the atom at the same place of the symbol that this one
stands for. -/
theorem Lawful.replacementOf_standIn (lawful : graph.Lawful limit) {atom : Atom} {target : Tensor κ}
    (found : graph.aliases.find? atom.symbol = some target) (within : atom.Within) :
    ∃ other ∈ target.atoms, (Expr.replacementOf graph.standIn atom : Expr κ) = .atom other ∧
      target = .ofSymbol other.symbol ∧ other.flatIndex = atom.flatIndex := by
  obtain ⟨last, stands⟩ := lawful.aliases found
  have bound : atom.flatIndex < last.shape.size := by
    rw [stands.shape_eq]
    exact within
  obtain ⟨other, entry, rfl, index⟩ := Tensor.entryAt_ofSymbol (κ := κ) bound
  have whole := stands.target_eq
  refine ⟨other, Tensor.mem_atoms.mpr ⟨.atom other, ?_, ?_⟩, ?_, whole, index⟩
  · rw [whole]
    exact List.mem_of_getElem? (Tensor.entryAt_eq_ok.mp entry).2
  · rw [Expr.occurrences, List.mem_singleton]
  · simp [Expr.replacementOf, standIn, found, whole, entry, Except.toOption]

theorem Lawful.replacementOf_standIn_outside (lawful : graph.Lawful limit) {atom : Atom}
    (outside : ¬atom.Within) :
    (Expr.replacementOf graph.standIn atom : Expr κ) = .atom atom := by
  cases found : graph.aliases.find? atom.symbol with
  | none => exact replacementOf_standIn_none found
  | some target =>
      obtain ⟨last, stands⟩ := lawful.aliases found
      rw [Atom.Within, ← stands.shape_eq] at outside
      cases entry : target.entryAt atom.flatIndex with
      | error _ => simp [Expr.replacementOf, standIn, found, entry, Except.toOption]
      | ok expr =>
          rw [stands.target_eq] at entry
          exact absurd (Tensor.entryAt_eq_ok.mp entry).1 outside

/-- An atom of a resolved value is an atom of the value, or of what an alias stands for. -/
theorem Lawful.mem_atoms_resolveAliases (lawful : graph.Lawful limit) {value : Tensor κ}
    {atom : Atom} (member : atom ∈ (graph.resolveAliases value).atoms) :
    atom ∈ value.atoms ∨ ∃ symbol target, graph.aliases.find? symbol = some target ∧
      atom ∈ target.atoms := by
  rw [resolveAliases_eq] at member
  split at member
  · exact Or.inl member
  obtain ⟨replaced, inside, put⟩ := Tensor.mem_atoms_substitute member
  by_cases within : replaced.Within
  · cases known : graph.aliases.find? replaced.symbol with
    | none =>
        rw [replacementOf_standIn_none known, Expr.occurrences, List.mem_singleton] at put
        exact Or.inl (put ▸ inside)
    | some target =>
        obtain ⟨other, among, whole, _⟩ := lawful.replacementOf_standIn known within
        rw [whole, Expr.occurrences, List.mem_singleton] at put
        exact Or.inr ⟨replaced.symbol, target, known, put ▸ among⟩
  · rw [lawful.replacementOf_standIn_outside within, Expr.occurrences, List.mem_singleton] at put
    exact Or.inl (put ▸ inside)

theorem Lawful.resolveAliases_issued (lawful : graph.Lawful limit) {value : Tensor κ}
    (issued : value.Issued limit) : (graph.resolveAliases value).Issued limit where
  length_eq := by
    rw [resolveAliases_eq]
    split
    · exact issued.length_eq
    · rw [Tensor.length_substitute, Tensor.shape_substitute, issued.length_eq]
  numbers := by
    intro atom member
    rcases lawful.mem_atoms_resolveAliases member with old | ⟨_, _, known, among⟩
    · exact issued.numbers atom old
    · exact (lawful.issued_alias known).numbers atom among

theorem Lawful.resolveAliases_placed (lawful : graph.Lawful limit) {value : Tensor κ}
    (placed : value.Placed) : (graph.resolveAliases value).Placed := by
  intro atom member
  rcases lawful.mem_atoms_resolveAliases member with old | ⟨_, _, known, among⟩
  · exact placed atom old
  · exact lawful.placed_alias known atom among

/-- The graph in which a new equation has been entered, before the cache is looked after. -/
def entered (graph : Graph κ) (node : Node κ) : Graph κ :=
  { graph.appendNode node with
    consumers := node.reads.foldl
      (fun consumers read => Grouping.insert read graph.nodes.length consumers) graph.consumers
    aliases := graph.aliases.erase node.symbol
    built := false }

theorem addEquation_ok {name : String} {symbol : Symbol} {value : Tensor κ}
    {categories : CategorySet}
    (added : Graph.addEquation name symbol value categories graph = .ok after) :
    graph.isDefined symbol = true ∧ after = graph ∨
      categories.isEmpty = false ∧ (graph.resolveAliases value).shape = symbol.shape ∧
        graph.isInput symbol = false ∧ graph.isDefined symbol = false ∧
          after = (graph.entered (Node.ofEquation
            ⟨name, symbol, graph.resolveAliases value, categories⟩ value)).invalidate symbol := by
  unfold Graph.addEquation at added
  simp only at added
  split at added
  · cases added
  split at added
  · cases added
  split at added
  · cases added
  rename_i nonempty shape noInput
  split at added
  · rename_i node live
    split at added
    · cases added
      exact Or.inl ⟨isDefined_iff.mpr ⟨node, live⟩, rfl⟩
    · cases added
  · rename_i missing
    cases added
    refine Or.inr ⟨by simpa using nonempty, by simpa using shape, by simpa using noInput, ?_, rfl⟩
    have absent : graph.nodeOf? symbol = none := missing
    rw [isDefined_eq, absent]
    rfl

theorem addEquation_new {name : String} {symbol : Symbol} {value : Tensor κ}
    {categories : CategorySet} (undefined : graph.isDefined symbol = false)
    (added : Graph.addEquation name symbol value categories graph = .ok after) :
    categories.isEmpty = false ∧ (graph.resolveAliases value).shape = symbol.shape ∧
      graph.isInput symbol = false ∧
        after = (graph.entered (Node.ofEquation
          ⟨name, symbol, graph.resolveAliases value, categories⟩ value)).invalidate symbol := by
  rcases addEquation_ok added with ⟨defined, _⟩ | ⟨nonempty, shape, noInput, _, same⟩
  · rw [undefined] at defined
    cases defined
  · exact ⟨nonempty, shape, noInput, same⟩

theorem Lawful.entered (lawful : graph.Lawful limit) {node : Node κ} (live : node.removed = false)
    (regular : node.Regular limit) (undefined : graph.isDefined node.symbol = false)
    (noInput : graph.isInput node.symbol = false) : (graph.entered node).Lawful limit := by
  have appended := lawful.appendNode live regular undefined noInput
  refine ⟨appended.found, appended.current, appended.regular, appended.apart, appended.inputs, ?_⟩
  intro symbol target known
  have kept := Table.find?_erase graph.aliases node.symbol symbol
  rw [show (graph.aliases.erase node.symbol).find? symbol = some target from known] at kept
  split at kept
  · cases kept
  · exact lawful.aliases kept.symm

theorem Placed.addEquation (placed : graph.Placed) (lawful : graph.Lawful limit) {name : String}
    {symbol : Symbol} {value : Tensor κ} {categories : CategorySet} (within : value.Placed)
    (added : Graph.addEquation name symbol value categories graph = .ok after) : after.Placed := by
  rcases addEquation_ok added with ⟨_, rfl⟩ | ⟨_, _, _, _, rfl⟩
  · exact placed
  · have node : (Node.ofEquation ⟨name, symbol, graph.resolveAliases value, categories⟩
        value).Placed := ⟨lawful.resolveAliases_placed within, within⟩
    exact placed.appendNode rfl node

theorem Linked.entered (linked : graph.Linked) {node : Node κ} (live : node.removed = false) :
    (graph.entered node).Linked := by
  intro symbol index
  rw [readersOf_eq]
  change index ∈ Grouping.valuesIn (node.reads.foldl _ graph.consumers) symbol ↔
    ∃ other, (graph.appendNode node).node? index = some other ∧ symbol ∈ other.reads
  rw [valuesIn_foldl_insert, ← readersOf_eq, List.mem_append, linked symbol index,
    List.mem_replicate, Nat.ne_zero_iff_zero_lt, List.count_pos_iff, node?_appendNode graph live]
  constructor
  · rintro (⟨other, found, reads⟩ | ⟨reads, rfl⟩)
    · have bound := node?_lt found
      rw [if_neg (by omega)]
      exact ⟨other, found, reads⟩
    · rw [if_pos rfl]
      exact ⟨node, rfl, reads⟩
  · rintro ⟨other, found, reads⟩
    split at found
    · rename_i here
      cases found
      exact Or.inr ⟨reads, here.symm⟩
    · exact Or.inl ⟨other, found, reads⟩

theorem Valid.addEquation (valid : graph.Valid limit) {name : String} {symbol : Symbol}
    {value : Tensor κ} {categories : CategorySet} (issued : symbol.number < limit)
    (valueIssued : value.Issued limit)
    (added : Graph.addEquation name symbol value categories graph = .ok after) :
    after.Valid limit := by
  rcases addEquation_ok added with ⟨_, rfl⟩ | ⟨_, shape, noInput, undefined, rfl⟩
  · exact valid
  · have resolved := valid.toLawful.resolveAliases_issued valueIssued
    generalize graph.resolveAliases value = meant at shape resolved
    have nodeRegular : (Node.ofEquation ⟨name, symbol, meant, categories⟩ value).Regular limit :=
      ⟨rfl, shape, resolved, issued⟩
    have lawful := valid.toLawful.entered rfl nodeRegular undefined noInput
    have linked := valid.linked.entered
      (show (Node.ofEquation ⟨name, symbol, meant, categories⟩ value).removed = false from rfl)
    constructor
    · exact lawful.congr rfl rfl rfl rfl
    · exact linked
    · refine Coherent.invalidate lawful valid.toLawful linked valid.coherent
        (valid.coherent.cached?_eq_none undefined) ?_ (fun _ => rfl) (fun _ _ => rfl) ?_
      · intro other differs
        exact (valid.toLawful.nodeOf?_appendNode rfl other).trans (if_neg (Ne.symm differs))
      · intro other bound found
        exact valid.coherent.bound found
    · intro built
      cases built

end Mechanism.Graph
