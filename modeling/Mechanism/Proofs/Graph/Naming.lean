import Mechanism.Proofs.Graph.Hoisting

/-!
The graph in which repeated subexpressions have got names: the shared values take the places of the
old ones, and the temporaries stand at the end.
-/

namespace Mechanism.Graph

variable {κ : Type} [Scalar κ] {limit more : Nat} {named : Naming κ}
  {temporaries : List (Symbol × Expr κ)} {before after : Graph κ}

structure SameTables (before after : Graph κ) : Prop where
  definitions : after.definitions = before.definitions
  inputs : after.inputs = before.inputs
  aliases : after.aliases = before.aliases
  store : after.store = before.store
  settings : after.settings = before.settings
  simplifier : after.simplifier = before.simplifier
  length : after.nodes.length = before.nodes.length

def setValues (graph : Graph κ) (pairs : List (Nat × Tensor κ)) : Graph κ :=
  pairs.foldl (fun graph (index, value) => graph.setValue index value) graph

variable {graph : Graph κ}

theorem setValues_sameTables (graph : Graph κ) (pairs : List (Nat × Tensor κ)) :
    SameTables graph (graph.setValues pairs) := by
  induction pairs generalizing graph with
  | nil => exact ⟨rfl, rfl, rfl, rfl, rfl, rfl, rfl⟩
  | cons head tail ih =>
      have rest := ih (graph.setValue head.1 head.2)
      have length : (graph.setValue head.1 head.2).nodes.length = graph.nodes.length := by
        simp [setValue, modifyNode]
      exact ⟨rest.definitions, rest.inputs, rest.aliases, rest.store, rest.settings,
        rest.simplifier, rest.length.trans length⟩

theorem node?_setValues_of_notMem {pairs : List (Nat × Tensor κ)} {index : Nat}
    (absent : index ∉ pairs.map (·.1)) : (graph.setValues pairs).node? index = graph.node? index := by
  induction pairs generalizing graph with
  | nil => rfl
  | cons head tail ih =>
      rw [List.map_cons, List.mem_cons, not_or] at absent
      refine (ih absent.2).trans ?_
      rw [node?_setValue, if_neg (Ne.symm absent.1)]

theorem node?_setValues {pairs : List (Nat × Tensor κ)} (unique : (pairs.map (·.1)).Nodup)
    {index : Nat} {value : Tensor κ} (member : (index, value) ∈ pairs) :
    (graph.setValues pairs).node? index =
      (graph.node? index).map fun node => node.withValue value := by
  induction pairs generalizing graph with
  | nil => cases member
  | cons head tail ih =>
      rw [List.map_cons, List.nodup_cons] at unique
      rcases List.mem_cons.mp member with here | later
      · subst here
        refine (node?_setValues_of_notMem unique.1).trans ?_
        rw [node?_setValue, if_pos rfl]
      · refine (ih unique.2 later).trans ?_
        rw [node?_setValue, if_neg]
        intro same
        exact unique.1 (List.mem_map.mpr ⟨_, later, same.symm⟩)

theorem Lawful.setValues (lawful : graph.Lawful limit) {pairs : List (Nat × Tensor κ)}
    (unique : (pairs.map (·.1)).Nodup)
    (fits : ∀ pair ∈ pairs, ∃ node, graph.node? pair.1 = some node ∧
      pair.2.shape = node.value.shape ∧ pair.2.Issued limit) :
    (graph.setValues pairs).Lawful limit := by
  induction pairs generalizing graph with
  | nil => exact lawful
  | cons head tail ih =>
      rw [List.map_cons, List.nodup_cons] at unique
      obtain ⟨node, live, shape, issued⟩ := fits head List.mem_cons_self
      refine ih (lawful.setValue live shape issued) unique.2 ?_
      intro pair member
      obtain ⟨other, otherLive, otherShape, otherIssued⟩ :=
        fits pair (List.mem_cons_of_mem _ member)
      refine ⟨other, ?_, otherShape, otherIssued⟩
      rw [node?_setValue, if_neg, otherLive]
      intro same
      exact unique.1 (List.mem_map.mpr ⟨pair, member, same.symm⟩)

theorem Placed.setValues (placed : graph.Placed) {pairs : List (Nat × Tensor κ)}
    (within : ∀ pair ∈ pairs, pair.2.Placed) : (graph.setValues pairs).Placed := by
  induction pairs generalizing graph with
  | nil => exact placed
  | cons head tail ih =>
      exact ih (placed.setValue (within head List.mem_cons_self))
        (fun pair member => within pair (List.mem_cons_of_mem _ member))

def temporaryNode (temporary : Symbol × Expr κ) : Node κ :=
  Node.ofEquation ⟨temporary.1.name, temporary.1, .ofExpr temporary.2, .only .variable⟩
    (.ofExpr temporary.2)

theorem Placed.appendTemporaries (placed : graph.Placed) {temporaries : List (Symbol × Expr κ)}
    (within : ∀ temporary ∈ temporaries, (temporaryNode temporary).Placed) :
    (temporaries.foldl appendTemporary graph).Placed := by
  induction temporaries generalizing graph with
  | nil => exact placed
  | cons head tail ih =>
      exact ih (placed.appendNode rfl (within head List.mem_cons_self))
        (fun temporary member => within temporary (List.mem_cons_of_mem _ member))

theorem appendTemporary_eq (graph : Graph κ) (temporary : Symbol × Expr κ) :
    graph.appendTemporary temporary = graph.appendNode (temporaryNode temporary) := rfl

structure Extended (temporaries : List (Symbol × Expr κ)) (before after : Graph κ) : Prop where
  nodes : after.nodes = before.nodes ++ temporaries.map temporaryNode
  inputs : after.inputs = before.inputs
  aliases : after.aliases = before.aliases
  store : after.store = before.store
  settings : after.settings = before.settings
  simplifier : after.simplifier = before.simplifier
  old : ∀ symbol, symbol ∉ temporaries.map (·.1) → after.nodeOf? symbol = before.nodeOf? symbol
  new : ∀ temporary ∈ temporaries, after.nodeOf? temporary.1 = some (temporaryNode temporary)

structure Appendable (limit : Nat) (temporaries : List (Symbol × Expr κ)) (graph : Graph κ) :
    Prop where
  lawful : graph.Lawful limit
  unique : (temporaries.map (·.1)).Nodup
  regular : ∀ temporary ∈ temporaries, (temporaryNode temporary).Regular limit
  fresh : ∀ temporary ∈ temporaries, graph.isDefined temporary.1 = false ∧
    graph.isInput temporary.1 = false

theorem Appendable.nodeOf?_appendTemporary {head : Symbol × Expr κ}
    {tail : List (Symbol × Expr κ)} (appendable : Appendable limit (head :: tail) graph)
    (symbol : Symbol) : (graph.appendTemporary head).nodeOf? symbol =
      if head.1 = symbol then some (temporaryNode head) else graph.nodeOf? symbol :=
  appendable.lawful.nodeOf?_appendNode rfl symbol

theorem Appendable.tail {head : Symbol × Expr κ} {tail : List (Symbol × Expr κ)}
    (appendable : Appendable limit (head :: tail) graph) :
    Appendable limit tail (graph.appendTemporary head) := by
  obtain ⟨undefined, noInput⟩ := appendable.fresh head List.mem_cons_self
  have distinct := List.nodup_cons.mp (List.map_cons ▸ appendable.unique)
  refine ⟨appendable.lawful.appendNode rfl (appendable.regular head List.mem_cons_self) undefined
    noInput, distinct.2, fun temporary member => appendable.regular temporary
      (List.mem_cons_of_mem _ member), ?_⟩
  intro temporary member
  obtain ⟨before, noInput⟩ := appendable.fresh temporary (List.mem_cons_of_mem _ member)
  refine ⟨?_, noInput⟩
  rw [isDefined_eq, appendable.nodeOf?_appendTemporary, if_neg, ← isDefined_eq]
  · exact before
  · intro same
    exact distinct.1 (same ▸ List.mem_map_of_mem member)

theorem extended_appendTemporaries {temporaries : List (Symbol × Expr κ)}
    (appendable : Appendable limit temporaries graph) :
    Extended temporaries graph (temporaries.foldl appendTemporary graph) ∧
      (temporaries.foldl appendTemporary graph).Lawful limit := by
  induction temporaries generalizing graph with
  | nil =>
      exact ⟨⟨by simp, rfl, rfl, rfl, rfl, rfl, fun _ _ => rfl, nofun⟩, appendable.lawful⟩
  | cons head tail ih =>
      have distinct := List.nodup_cons.mp (List.map_cons ▸ appendable.unique)
      have lookup := appendable.nodeOf?_appendTemporary
      obtain ⟨rest, restLawful⟩ := ih appendable.tail
      refine ⟨⟨?_, rest.inputs, rest.aliases, rest.store, rest.settings, rest.simplifier, ?_, ?_⟩,
        restLawful⟩
      · rw [List.foldl_cons, rest.nodes, appendTemporary_eq]
        simp [appendNode]
      · intro symbol absent
        rw [List.map_cons, List.mem_cons, not_or] at absent
        rw [List.foldl_cons, rest.old symbol absent.2, lookup, if_neg (Ne.symm absent.1)]
      · intro temporary member
        rcases List.mem_cons.mp member with here | later
        · subst here
          rw [List.foldl_cons, rest.old _ distinct.1, lookup, if_pos rfl]
        · exact rest.new temporary later

theorem namedValues_source {repeated : Expr κ → Bool} {equations : List (Equation κ)}
    {expr : Expr κ} {symbol : Symbol}
    (found : (namedValues repeated equations)[expr]? = some symbol) :
    ∃ equation ∈ equations, equation.symbol = symbol ∧ equation.value.toExpr = .ok expr := by
  refine (Grouping.foldl_source (fun named => named[expr]? = some symbol) ?_ equations
    found).resolve_left (by simp)
  intro named equation stepped
  cases whole : equation.value.toExpr with
  | error _ =>
      rw [whole] at stepped
      exact Or.inl stepped
  | ok other =>
      simp only [whole] at stepped
      split at stepped
      · rw [Std.HashMap.getElem?_insert] at stepped
        split at stepped
        · rename_i same
          cases stepped
          exact Or.inr ⟨rfl, congrArg Except.ok (eq_of_beq same)⟩
        · exact Or.inl stepped
      · exact Or.inl stepped

/-- An atom of an issued symbol that has a value, at a place of it if the graph is placed. -/
def Usable (limit : Nat) (graph : Graph κ) (atom : Atom) : Prop :=
  atom.symbol.number < limit ∧ (graph.Placed → atom.Within) ∧
    (graph.isDefined atom.symbol = true ∨ graph.isInput atom.symbol = true)

theorem Orderly.usable (orderly : graph.Orderly limit) {index : Nat} {node : Node κ}
    (live : graph.node? index = some node) : ∀ atom ∈ node.value.atoms, Usable limit graph atom := by
  intro atom member
  have regular := orderly.toLawful.regular live
  refine ⟨regular.value.numbers atom member, fun placed => (placed live).value atom member, ?_⟩
  apply orderly.bound node.symbol node (orderly.toLawful.nodeOf?_symbol live)
  exact regular.mem_reads member

theorem forall₂_comp {α β γ : Type} {first : α → β → Prop} {second : β → γ → Prop} {xs : List α}
    {ys : List β} {zs : List γ} (left : List.Forall₂ first xs ys)
    (right : List.Forall₂ second ys zs) :
    List.Forall₂ (fun x z => ∃ y, first x y ∧ second y z) xs zs := by
  induction left generalizing zs with
  | nil =>
      cases right
      exact List.Forall₂.nil
  | cons head _ ih =>
      cases right with
      | cons other rest => exact List.Forall₂.cons ⟨_, head, other⟩ (ih rest)

theorem forall₂_live (graph : Graph κ) :
    List.Forall₂ (fun index equation => ∃ node, graph.node? index = some node ∧
      node.equation = equation) graph.liveIndices graph.equations := by
  have walk : ∀ indices : List Nat, (∀ index ∈ indices, ∃ node, graph.node? index = some node) →
      List.Forall₂ (fun index equation => ∃ node, graph.node? index = some node ∧
        node.equation = equation) indices ((indices.filterMap graph.node?).map Node.equation) := by
    intro indices live
    induction indices with
    | nil => exact List.Forall₂.nil
    | cons head tail ih =>
        obtain ⟨node, found⟩ := live head List.mem_cons_self
        rw [List.filterMap_cons, found]
        exact List.Forall₂.cons ⟨node, found, rfl⟩
          (ih fun index member => live index (List.mem_cons_of_mem _ member))
  rw [equations, liveNodes_eq]
  exact walk _ fun index member => mem_liveIndices.mp member

structure Named (before : Graph κ) (supply : SymbolSupply) (after : Graph κ) (created : List Nat)
    (later : SymbolSupply) : Prop where
  shares : ∃ named temporaries, Shares named temporaries before after ∧
    ∀ symbol value, (symbol, value) ∈ temporaries → supply.next ≤ symbol.number
  le : supply.next ≤ later.next
  lawful : after.Lawful later.next
  placed : before.Placed → after.Placed
  store : after.store = before.store
  settings : after.settings = before.settings
  simplifier : after.simplifier = before.simplifier
  unique : created.Nodup
  created : ∀ index ∈ created, ∃ node, after.node? index = some node ∧
    supply.next ≤ node.symbol.number

section

variable {supply : SymbolSupply} {repeated : Expr κ → Bool} {nextName : Nat} {state : Hoisting κ}

def hoistingOf (graph : Graph κ) (repeated : Expr κ → Bool) (nextName : Nat)
    (supply : SymbolSupply) : Hoisting κ :=
  ⟨namedValues repeated graph.equations, [], nextName, supply⟩

theorem hoistingOf_named (lawful : graph.Lawful limit) {expr : Expr κ} {symbol : Symbol}
    (found : (graph.hoistingOf repeated nextName supply).named[expr]? = some symbol) :
    ∃ node, graph.nodeOf? symbol = some node ∧ node.value = .ofExpr expr := by
  obtain ⟨equation, member, rfl, whole⟩ := namedValues_source found
  obtain ⟨node, liveNode, rfl⟩ := List.mem_map.mp member
  obtain ⟨index, live⟩ := mem_liveNodes.mp liveNode
  exact ⟨node, lawful.nodeOf?_symbol live, (lawful.regular live).value.eq_ofExpr whole⟩

theorem hoisted_start (orderly : graph.Orderly limit) :
    Hoisted (graph.hoistingOf repeated nextName supply) (Usable limit graph)
      (fun expr symbol => (graph.hoistingOf repeated nextName supply).named[expr]? = some symbol)
      (graph.hoistingOf repeated nextName supply) where
  known := fun found => found
  source := fun found => Or.inl found
  reads := by
    intro expr symbol found atom occurs
    obtain ⟨node, live, whole⟩ := hoistingOf_named orderly.toLawful found
    obtain ⟨index, live, _⟩ := orderly.toLawful.nodeOf?_iff.mp live
    apply orderly.usable live
    rw [whole, Tensor.mem_atoms_ofExpr]
    exact occurs
  made := nofun
  scalar := nofun
  fresh := nofun
  nodup := List.nodup_nil
  le := le_refl _

variable (orderly : graph.Orderly supply.next)
  (hoisted : Hoisted (graph.hoistingOf repeated nextName supply) (Usable supply.next graph) named
    state)

include orderly hoisted

theorem Hoisted.scalar_named {expr : Expr κ} {symbol : Symbol} (isNamed : named expr symbol) :
    symbol.shape = .scalar ∧ symbol.number < state.supply.next := by
  rcases hoisted.source isNamed with first | ⟨value, member, _⟩
  · obtain ⟨node, found, whole⟩ := hoistingOf_named orderly.toLawful first
    have regular := orderly.toLawful.regular_of_nodeOf? found
    rw [← orderly.toLawful.symbol_eq found]
    refine ⟨?_, regular.issued.trans_le hoisted.le⟩
    rw [← regular.shape_eq, whole]
    rfl
  · exact ⟨hoisted.scalar _ member, (hoisted.fresh _ member).2⟩

theorem Hoisted.issued_value {node : Node κ} {index : Nat} (live : graph.node? index = some node)
    {value : Tensor κ} (shared : SharedTensor named node.value value) :
    value.Issued state.supply.next where
  length_eq := by
    rw [← shared.entries.length_eq, (orderly.toLawful.regular live).value.length_eq, shared.shape_eq]
  numbers := shared.atoms (fun atom => atom.symbol.number < state.supply.next)
    (fun _ _ isNamed _ => (hoisted.scalar_named orderly isNamed).2)
    (fun inner member => (orderly.usable live inner member).1.trans_le hoisted.le)

theorem Hoisted.placed_value (placed : graph.Placed) {node : Node κ} {index : Nat}
    (live : graph.node? index = some node) {value : Tensor κ}
    (shared : SharedTensor named node.value value) : value.Placed :=
  shared.atoms Atom.Within
    (fun _ _ isNamed _ => Atom.within_whole (hoisted.scalar_named orderly isNamed).1)
    (placed live).value

theorem Hoisted.temporary_atoms (property : Atom → Prop)
    (names : ∀ symbol : Symbol, symbol.shape = .scalar → symbol.number < state.supply.next →
      property (.whole symbol))
    (usable : ∀ atom, Usable supply.next graph atom → property atom)
    {temporary : Symbol × Expr κ} (member : temporary ∈ state.temporaries) :
    ∀ atom ∈ (temporaryNode temporary).value.atoms, property atom := by
  intro atom reads
  obtain ⟨expr, isNamed, below⟩ := hoisted.made temporary member
  refine shared_occurrences property (fun _ symbol isNamed _ => ?_) ?_ below.shared atom
    (Tensor.mem_atoms_ofExpr.mp reads)
  · obtain ⟨scalar, issued⟩ := hoisted.scalar_named orderly isNamed
    exact names symbol scalar issued
  · exact fun inner inside => usable inner (hoisted.reads isNamed inner inside)

theorem Hoisted.regular_temporary {temporary : Symbol × Expr κ}
    (member : temporary ∈ state.temporaries) :
    (temporaryNode temporary).Regular state.supply.next where
  reads_eq := rfl
  shape_eq := (hoisted.scalar temporary member).symm
  value := ⟨rfl, hoisted.temporary_atoms orderly (fun atom => atom.symbol.number < state.supply.next)
    (fun _ _ issued => issued) (fun _ usable => usable.1.trans_le hoisted.le) member⟩
  issued := (hoisted.fresh temporary member).2

theorem Hoisted.placed_temporary (placed : graph.Placed) {temporary : Symbol × Expr κ}
    (member : temporary ∈ state.temporaries) : (temporaryNode temporary).Placed := by
  have within : (temporaryNode temporary).value.Placed := hoisted.temporary_atoms orderly Atom.Within
    (fun _ scalar _ => Atom.within_whole scalar) (fun _ usable => usable.2.1 placed) member
  exact ⟨within, within⟩

end

theorem isDefined_setValues {pairs : List (Nat × Tensor κ)} (unique : (pairs.map (·.1)).Nodup)
    (symbol : Symbol) : (graph.setValues pairs).isDefined symbol = graph.isDefined symbol := by
  rw [isDefined_eq, isDefined_eq, nodeOf?_eq, nodeOf?_eq,
    (setValues_sameTables graph pairs).definitions]
  cases graph.definitions.find? symbol with
  | none => rfl
  | some index =>
      rw [Option.bind_some, Option.bind_some]
      by_cases member : index ∈ pairs.map (·.1)
      · obtain ⟨pair, among, rfl⟩ := List.mem_map.mp member
        rw [node?_setValues unique among, Option.isSome_map]
      · rw [node?_setValues_of_notMem member]

/-- A graph with the same tables in which every definition has a shared value. -/
structure Revalued (named : Naming κ) (limit : Nat) (before after : Graph κ) : Prop
    extends SameTables before after where
  lawful : after.Lawful limit
  defined : ∀ symbol, after.isDefined symbol = before.isDefined symbol
  values : ∀ {symbol : Symbol} {node : Node κ}, before.nodeOf? symbol = some node →
    ∃ value, after.nodeOf? symbol = some (node.withValue value) ∧
      SharedTensor named node.value value

theorem revalued_setValues (lawful : graph.Lawful limit) {pairs : List (Nat × Tensor κ)}
    (indices : pairs.map (·.1) = graph.liveIndices)
    (shared : ∀ pair ∈ pairs, ∃ node, graph.node? pair.1 = some node ∧
      SharedTensor named node.value pair.2 ∧ pair.2.Issued limit) :
    Revalued named limit graph (graph.setValues pairs) := by
  have unique : (pairs.map (·.1)).Nodup := by
    rw [indices]
    exact nodup_liveIndices graph
  have changed : (graph.setValues pairs).Lawful limit := by
    refine lawful.setValues unique ?_
    intro pair member
    obtain ⟨node, live, shared, issued⟩ := shared pair member
    exact ⟨node, live, shared.shape_eq, issued⟩
  refine ⟨setValues_sameTables graph pairs, changed, isDefined_setValues unique, ?_⟩
  intro symbol node found
  obtain ⟨index, live, rfl⟩ := lawful.nodeOf?_iff.mp found
  have among : index ∈ pairs.map (·.1) := by
    rw [indices]
    exact mem_liveIndices.mpr ⟨node, live⟩
  obtain ⟨pair, member, rfl⟩ := List.mem_map.mp among
  obtain ⟨former, before, shared, _⟩ := shared pair member
  rw [live, Option.some.injEq] at before
  subst before
  have now : (graph.setValues pairs).node? pair.1 = some (node.withValue pair.2) := by
    rw [node?_setValues unique member, live]
    rfl
  exact ⟨pair.2, changed.nodeOf?_symbol now, shared⟩

section

variable {supply : SymbolSupply} {repeated : Expr κ → Bool} {nextName : Nat} {state : Hoisting κ}

theorem exists_hoisted (orderly : graph.Orderly supply.next) (repeated : Expr κ → Bool)
    (nextName : Nat) {run : List (Tensor κ) × Hoisting κ}
    (same : run = Hoist.perform (graph.equations.mapM fun equation =>
      shareValue repeated equation.value) (graph.hoistingOf repeated nextName supply)) :
    ∃ named, Hoisted (graph.hoistingOf repeated nextName supply) (Usable supply.next graph) named
        run.2 ∧
      List.Forall₂ (fun equation result => SharedTensor named equation.value result)
        graph.equations run.1 := by
  have yields : Hoist.Yields (graph.hoistingOf repeated nextName supply) (Usable supply.next graph)
      (graph.equations.mapM fun equation => shareValue repeated equation.value)
      (fun named results => List.Forall₂ (fun equation result =>
        SharedTensor named equation.value result) graph.equations results) := by
    refine Hoist.yields_mapM ?_ fun _ _ _ _ within shared => shared.mono within
    intro equation member
    obtain ⟨node, liveNode, rfl⟩ := List.mem_map.mp member
    obtain ⟨index, live⟩ := mem_liveNodes.mp liveNode
    exact yields_shareValue node.value (orderly.usable live)
  obtain ⟨named, _, hoisted, values⟩ := yields _ _ (hoisted_start orderly)
  rw [← same] at hoisted values
  exact ⟨named, hoisted, values⟩

theorem Hoisted.notTemporary {start : Hoisting κ} {good : Atom → Prop}
    (hoisted : Hoisted start good named state) {symbol : Symbol}
    (old : symbol.number < start.supply.next) : symbol ∉ state.temporaries.map (·.1) := by
  intro member
  obtain ⟨temporary, among, rfl⟩ := List.mem_map.mp member
  exact absurd (hoisted.fresh temporary among).1 (not_le.mpr old)

variable (orderly : graph.Orderly supply.next)
  (hoisted : Hoisted (graph.hoistingOf repeated nextName supply) (Usable supply.next graph) named
    state)

include orderly hoisted

theorem Hoisted.fits {values : List (Tensor κ)}
    (shared : List.Forall₂ (fun equation result => SharedTensor named equation.value result)
      graph.equations values) :
    (graph.liveIndices.zip values).map (·.1) = graph.liveIndices ∧
      ∀ pair ∈ graph.liveIndices.zip values, ∃ node, graph.node? pair.1 = some node ∧
        SharedTensor named node.value pair.2 ∧ pair.2.Issued state.supply.next := by
  have aligned := forall₂_comp (forall₂_live graph) shared
  refine ⟨List.map_fst_zip aligned.length_eq.le, ?_⟩
  intro pair member
  obtain ⟨_, ⟨node, live, rfl⟩, shared⟩ := List.forall₂_zip aligned member
  exact ⟨node, live, shared, hoisted.issued_value orderly live shared⟩

theorem Hoisted.revalued {values : List (Tensor κ)}
    (shared : List.Forall₂ (fun equation result => SharedTensor named equation.value result)
      graph.equations values) :
    Revalued named state.supply.next graph
      (({ graph with nextTemporary := state.nextName } : Graph κ).setValues
        (graph.liveIndices.zip values)) := by
  obtain ⟨indices, fits⟩ := hoisted.fits orderly shared
  have atBase : ({ graph with nextTemporary := state.nextName } : Graph κ).Lawful
      state.supply.next := (orderly.toLawful.mono hoisted.le).congr rfl rfl rfl rfl
  have revalued := revalued_setValues atBase indices fits
  exact ⟨⟨revalued.definitions, revalued.inputs, revalued.aliases, revalued.store,
    revalued.settings, revalued.simplifier, revalued.length⟩, revalued.lawful, revalued.defined,
    revalued.values⟩

theorem Hoisted.fresh_revalued {middle : Graph κ}
    (revalued : Revalued named state.supply.next graph middle) {temporary : Symbol × Expr κ}
    (member : temporary ∈ state.temporaries) :
    middle.isDefined temporary.1 = false ∧ middle.isInput temporary.1 = false := by
  have number := (hoisted.fresh temporary member).1
  constructor
  · rw [revalued.defined, ← Bool.not_eq_true]
    intro isDefined
    exact absurd (orderly.toLawful.defined_issued isDefined) (not_lt.mpr number)
  · rw [isInput, revalued.inputs, ← Bool.not_eq_true]
    intro isInput
    exact absurd (orderly.toLawful.inputs isInput) (not_lt.mpr number)

theorem Hoisted.appendable {middle : Graph κ}
    (revalued : Revalued named state.supply.next graph middle) :
    Appendable state.supply.next state.temporaries middle where
  lawful := revalued.lawful
  unique := hoisted.nodup
  regular := fun _ member => hoisted.regular_temporary orderly member
  fresh := fun _ member => hoisted.fresh_revalued orderly revalued member

theorem Hoisted.shares {middle : Graph κ}
    (revalued : Revalued named state.supply.next graph middle)
    (extended : Extended state.temporaries middle after) :
    Shares named state.temporaries graph after := by
  have lawful := orderly.toLawful
  constructor
  · intro symbol node found
    obtain ⟨value, now, shared⟩ := revalued.values found
    have issued := lawful.defined_issued (isDefined_iff.mpr ⟨node, found⟩)
    refine ⟨value, ?_, shared⟩
    rw [extended.old _ (hoisted.notTemporary issued), now]
  · intro symbol value member
    exact ⟨_, extended.new _ member, rfl⟩
  · intro symbol isDefined
    by_cases member : symbol ∈ state.temporaries.map (·.1)
    · obtain ⟨temporary, among, rfl⟩ := List.mem_map.mp member
      exact Or.inr ⟨temporary.2, among⟩
    · left
      rwa [isDefined_eq, extended.old symbol member, ← isDefined_eq, revalued.defined] at isDefined
  · exact extended.inputs.trans revalued.inputs
  · exact extended.aliases.trans revalued.aliases
  · intro expr symbol isNamed
    rcases hoisted.source isNamed with first | made
    · exact Or.inl (hoistingOf_named lawful first)
    · exact Or.inr made
  · intro symbol value member
    exact hoisted.made _ member
  · intro expr symbol isNamed atom occurs
    exact (hoisted.reads isNamed atom occurs).2.2

end

theorem Extended.node?_temporary (extended : Extended temporaries before after) {position : Nat}
    (bound : position < temporaries.length) :
    after.node? (before.nodes.length + position) = some (temporaryNode temporaries[position]) := by
  rw [node?_eq_some, extended.nodes, List.getElem?_append_right (Nat.le_add_right _ _),
    Nat.add_sub_cancel_left, List.getElem?_map, List.getElem?_eq_getElem bound]
  exact ⟨rfl, rfl⟩

theorem named_of_run {supply : SymbolSupply} (orderly : graph.Orderly supply.next)
    (repeated : Expr κ → Bool) (nextName : Nat) (run : List (Tensor κ) × Hoisting κ)
    (same : run = Hoist.perform (graph.equations.mapM fun equation =>
      shareValue repeated equation.value) (graph.hoistingOf repeated nextName supply)) :
    Named graph supply
      (run.2.temporaries.foldl appendTemporary
        (({ graph with nextTemporary := run.2.nextName } : Graph κ).setValues
          (graph.liveIndices.zip run.1)))
      ((List.range run.2.temporaries.length).map
        ((({ graph with nextTemporary := run.2.nextName } : Graph κ).setValues
          (graph.liveIndices.zip run.1)).nodes.length + ·))
      run.2.supply := by
  obtain ⟨named, hoisted, shared⟩ := exists_hoisted orderly repeated nextName same
  have revalued := hoisted.revalued orderly shared
  have placed (before : graph.Placed) :
      (({ graph with nextTemporary := run.2.nextName } : Graph κ).setValues
        (graph.liveIndices.zip run.1)).Placed := by
    have same : ({ graph with nextTemporary := run.2.nextName } : Graph κ).Placed :=
      before.of_node? fun _ => rfl
    refine same.setValues fun pair member => ?_
    obtain ⟨node, live, sharedValue, _⟩ := (hoisted.fits orderly shared).2 pair member
    exact hoisted.placed_value orderly before live sharedValue
  generalize ({ graph with nextTemporary := run.2.nextName } : Graph κ).setValues
    (graph.liveIndices.zip run.1) = middle at revalued placed
  obtain ⟨extended, lawful⟩ := extended_appendTemporaries (hoisted.appendable orderly revalued)
  refine ⟨⟨named, run.2.temporaries, hoisted.shares orderly revalued extended, ?_⟩, hoisted.le,
    lawful, fun before => (placed before).appendTemporaries fun temporary member =>
      hoisted.placed_temporary orderly before member,
    extended.store.trans revalued.store, extended.settings.trans revalued.settings,
    extended.simplifier.trans revalued.simplifier, ?_, ?_⟩
  · intro symbol value member
    exact (hoisted.fresh _ member).1
  · exact List.nodup_range.map (add_right_injective _)
  · intro index member
    obtain ⟨position, inRange, rfl⟩ := List.mem_map.mp member
    have bound := List.mem_range.mp inRange
    exact ⟨_, extended.node?_temporary bound, (hoisted.fresh _ (List.getElem_mem bound)).1⟩

theorem nameRepeated_named {supply : SymbolSupply} (orderly : graph.Orderly supply.next) :
    Named graph supply (graph.nameRepeated supply).1 (graph.nameRepeated supply).2.1
      (graph.nameRepeated supply).2.2 :=
  named_of_run orderly _ _ _ rfl

namespace Named

variable {supply later : SymbolSupply} {created : List Nat}
  (isNamed : Named before supply after created later)

include isNamed

theorem rewritten (orderly : before.Orderly supply.next) :
    Rewritten supply.next later.next before after := by
  obtain ⟨naming, temporaries, shares, fresh⟩ := isNamed.shares
  have lawful := orderly.toLawful
  refine ⟨isNamed.le, ⟨isNamed.lawful, shares.bound lawful isNamed.lawful orderly.bound,
    shares.acyclic lawful isNamed.lawful orderly.bound orderly.acyclic⟩, fun _ => isNamed.placed, ?_,
    shares.inputs, shares.aliases, isNamed.store, isNamed.settings, isNamed.simplifier⟩
  intro symbol old
  rw [Bool.eq_iff_iff]
  constructor
  · intro defined
    rcases shares.only defined with before | ⟨value, member⟩
    · exact before
    · exact absurd (fresh symbol value member) (not_le.mpr old)
  · exact shares.isDefined_of_before

theorem refines [Exact κ] (orderly : before.Orderly supply.next) (kept : Symbol → Prop) :
    Refines kept before after := by
  obtain ⟨naming, temporaries, shares, fresh⟩ := isNamed.shares
  exact shares.refines orderly.toLawful isNamed.lawful fresh kept

end Named

end Mechanism.Graph
