import Mechanism.Proofs.Graph.Renaming

/-!
The graph without its renaming equations. Whatever read a removed symbol reads the end of its
chain, and the removed symbol stays known as an alias of that end.
-/

open Relation (TransGen)

namespace Mechanism

namespace Graph

variable {κ : Type} [Scalar κ] {limit : Nat} {graph after : Graph κ} {ends : Table Symbol Symbol}

theorem Renames.stands (renames : graph.Renames ends) (lawful : graph.Lawful limit)
    {symbol last : Symbol} (found : ends.find? symbol = some last) :
    Stands limit symbol (.ofSymbol last : Tensor κ) last := by
  obtain ⟨node, _, defined, _⟩ := renames.definition found
  refine ⟨rfl, renames.shape_eq found, lawful.defined_issued (isDefined_iff.mpr ⟨node, defined⟩), ?_⟩
  rcases renames.below found with ⟨defined, _⟩ | input
  · exact lawful.defined_issued defined
  · exact lawful.inputs input

theorem replacementOf_retarget_none {atom : Atom} (kept : ends.find? atom.symbol = none) :
    (Expr.replacementOf (retarget ends) atom : Expr κ) = .atom atom := by
  simp [Expr.replacementOf, retarget, kept]

theorem replacementOf_retarget {atom : Atom} {last : Symbol}
    (found : ends.find? atom.symbol = some last) (shape : last.shape = atom.symbol.shape)
    (within : atom.Within) :
    ∃ other, (Expr.replacementOf (retarget ends) atom : Expr κ) = .atom other ∧
      other.symbol = last ∧ other.flatIndex = atom.flatIndex := by
  have bound : atom.flatIndex < last.shape.size := by
    rw [shape]
    exact within
  obtain ⟨other, entry, symbol, index⟩ := Symbol.entryAt_eq (κ := κ) bound
  refine ⟨other, ?_, symbol, index⟩
  simp [Expr.replacementOf, retarget, found, entry, Except.toOption]

theorem replacementOf_retarget_outside {atom : Atom} {last : Symbol}
    (found : ends.find? atom.symbol = some last) (shape : last.shape = atom.symbol.shape)
    (outside : ¬atom.Within) :
    (Expr.replacementOf (retarget ends) atom : Expr κ) = .atom atom := by
  have none : (last.entryAt atom.flatIndex : Except AlgebraError (Expr κ)).toOption = none :=
    Symbol.toOption_entryAt_outside (by rwa [shape])
  simp [Expr.replacementOf, retarget, found, none]

def retargeted (ends : Table Symbol Symbol) (node : Node κ) : Option (Node κ) :=
  if ends.contains node.symbol then none
  else if node.reads.any ends.contains then
    some (node.withValue (node.value.substitute (retarget ends)))
  else some node

theorem retargeted_eq_some {node now : Node κ} (kept : retargeted ends node = some now) :
    ends.find? node.symbol = none ∧
      (now = node.withValue (node.value.substitute (retarget ends)) ∨
        now = node ∧ ∀ read ∈ node.reads, ends.find? read = none) := by
  unfold retargeted at kept
  split at kept
  · cases kept
  rename_i unnamed
  refine ⟨by simpa [Table.contains] using unnamed, ?_⟩
  split at kept
  · exact Or.inl (Option.some.inj kept).symm
  · rename_i reads
    refine Or.inr ⟨(Option.some.inj kept).symm, ?_⟩
    intro read member
    rw [List.any_eq_true, not_exists] at reads
    have absent := reads read
    rw [Table.contains] at absent
    simpa [member] using absent

theorem retargeted_of_kept {node : Node κ} (kept : ends.find? node.symbol = none) :
    ∃ now, retargeted ends node = some now ∧ now.symbol = node.symbol := by
  rw [retargeted, Table.contains, kept, if_neg (by simp)]
  split
  · exact ⟨_, rfl, rfl⟩
  · exact ⟨_, rfl, rfl⟩

theorem node?_removeAlias (ends : Table Symbol Symbol) (graph : Graph κ) (index other : Nat) :
    (removeAlias ends graph index).node? other =
      if index = other then (graph.node? other).bind (retargeted ends) else graph.node? other := by
  unfold removeAlias
  split
  · rename_i missing
    split
    · rename_i here
      rw [← here, missing]
      rfl
    · rfl
  · rename_i node live
    split
    · rename_i last found
      refine (node?_removeNode graph index other).trans ?_
      split
      · rename_i here
        rw [← here, live, Option.bind_some, retargeted, Table.contains, found, Option.isSome_some,
          if_pos rfl]
      · rfl
    · rename_i kept
      have contains : ends.contains node.symbol = false := by rw [Table.contains, kept]; rfl
      split
      · rename_i reads
        rw [node?_setValue]
        split
        · rename_i here
          rw [← here, live, Option.map_some, Option.bind_some, retargeted, contains, if_neg (by simp),
            if_pos reads]
        · rfl
      · rename_i reads
        split
        · rename_i here
          rw [← here, live, Option.bind_some, retargeted, contains, if_neg (by simp), if_neg reads]
        · rfl

theorem aliases_removeAlias (ends : Table Symbol Symbol) (graph : Graph κ) (index : Nat)
    (symbol : Symbol) :
    (removeAlias ends graph index).aliases.find? symbol = graph.aliases.find? symbol ∨
      ∃ node last, graph.node? index = some node ∧ node.symbol = symbol ∧
        ends.find? symbol = some last ∧
          (removeAlias ends graph index).aliases.find? symbol = some (.ofSymbol last) := by
  unfold removeAlias
  split
  · exact Or.inl rfl
  rename_i node live
  split
  · rename_i last found
    simp only [Table.find?_insert]
    by_cases here : node.symbol = symbol
    · subst here
      exact Or.inr ⟨node, last, live, rfl, found, if_pos rfl⟩
    · exact Or.inl (if_neg here)
  · split <;> exact Or.inl rfl

/-- The graph after the removal of the renaming equations among the given ones. -/
structure Removed (ends : Table Symbol Symbol) (indices : List Nat) (before after : Graph κ) :
    Prop where
  node : ∀ other, after.node? other =
    if other ∈ indices then (before.node? other).bind (retargeted ends) else before.node? other
  definitions : after.definitions = before.definitions
  inputs : after.inputs = before.inputs
  store : after.store = before.store
  settings : after.settings = before.settings
  simplifier : after.simplifier = before.simplifier
  aliases : ∀ symbol, after.aliases.find? symbol = before.aliases.find? symbol ∨
    ∃ last, ends.find? symbol = some last ∧ after.aliases.find? symbol = some (.ofSymbol last)
  added : ∀ index ∈ indices, ∀ node, before.node? index = some node → ∀ last,
    ends.find? node.symbol = some last → after.aliases.find? node.symbol = some (.ofSymbol last)

theorem added_removeAlias {index : Nat} {node : Node κ} (live : graph.node? index = some node)
    {last : Symbol} (found : ends.find? node.symbol = some last) :
    (removeAlias ends graph index).aliases.find? node.symbol = some (.ofSymbol last) := by
  unfold removeAlias
  simp only [live, found, Table.find?_insert, ↓reduceIte]

theorem removed_removeAlias (ends : Table Symbol Symbol) (graph : Graph κ) (index : Nat) :
    Removed ends [index] graph (removeAlias ends graph index) := by
  have tables : (removeAlias ends graph index).definitions = graph.definitions ∧
      (removeAlias ends graph index).inputs = graph.inputs ∧
      (removeAlias ends graph index).store = graph.store ∧
      (removeAlias ends graph index).settings = graph.settings ∧
      (removeAlias ends graph index).simplifier = graph.simplifier := by
    unfold removeAlias
    split
    · exact ⟨rfl, rfl, rfl, rfl, rfl⟩
    split
    · exact ⟨rfl, rfl, rfl, rfl, rfl⟩
    split <;> exact ⟨rfl, rfl, rfl, rfl, rfl⟩
  obtain ⟨definitions, inputs, store, settings, simplifier⟩ := tables
  refine ⟨?_, definitions, inputs, store, settings, simplifier, ?_, ?_⟩
  · intro other
    rw [node?_removeAlias]
    simp only [List.mem_singleton, eq_comm]
  · intro symbol
    refine (aliases_removeAlias ends graph index symbol).imp_right ?_
    rintro ⟨_, last, _, _, found, now⟩
    exact ⟨last, found, now⟩
  · intro other member node live last found
    rw [List.mem_singleton.mp member] at live
    exact added_removeAlias live found

theorem Removed.trans {index : Nat} {tail : List Nat} {middle : Graph κ}
    (first : Removed ends [index] graph middle) (rest : Removed ends tail middle after)
    (fresh : index ∉ tail) : Removed ends (index :: tail) graph after where
  node := by
    intro other
    rw [rest.node, first.node]
    by_cases here : other = index
    · subst here
      simp [fresh]
    · simp [here]
  definitions := rest.definitions.trans first.definitions
  inputs := rest.inputs.trans first.inputs
  store := rest.store.trans first.store
  settings := rest.settings.trans first.settings
  simplifier := rest.simplifier.trans first.simplifier
  aliases := by
    intro symbol
    rcases rest.aliases symbol with same | new
    · rw [same]
      exact first.aliases symbol
    · exact Or.inr new
  added := by
    intro other member node live last found
    rcases List.mem_cons.mp member with here | later
    · have now := first.added other (List.mem_singleton.mpr here) node live last found
      rcases rest.aliases node.symbol with same | ⟨again, equal, new⟩
      · rw [same, now]
      · rw [found, Option.some.injEq] at equal
        rw [new, equal]
    · apply rest.added other later node _ last found
      rw [first.node, if_neg, live]
      rintro among
      exact fresh (List.mem_singleton.mp among ▸ later)

theorem foldl_removeAlias (indices : List Nat) (unique : indices.Nodup) (graph : Graph κ) :
    Removed ends indices graph (indices.foldl (removeAlias ends) graph) := by
  induction indices generalizing graph with
  | nil =>
      refine ⟨fun _ => by simp, rfl, rfl, rfl, rfl, rfl, fun _ => Or.inl rfl, nofun⟩
  | cons head tail ih =>
      obtain ⟨fresh, rest⟩ := List.nodup_cons.mp unique
      exact (removed_removeAlias ends graph head).trans (ih rest _) fresh

/-- An atom of a retargeted value stood there before, or is at the same place of the end of a chain
as an atom that stood there. -/
theorem mem_atoms_retarget (stands : ∀ {symbol last : Symbol}, ends.find? symbol = some last →
      Stands limit symbol (.ofSymbol last : Tensor κ) last) {value : Tensor κ} {atom : Atom}
    (member : atom ∈ (value.substitute (retarget ends)).atoms) :
    ∃ original ∈ value.atoms,
      original = atom ∧ (∀ last, ends.find? atom.symbol = some last → ¬atom.Within) ∨
        original.Within ∧ ends.find? original.symbol = some atom.symbol ∧ atom.Within := by
  obtain ⟨original, inside, put⟩ := Tensor.mem_atoms_substitute member
  refine ⟨original, inside, ?_⟩
  cases found : ends.find? original.symbol with
  | none =>
      rw [replacementOf_retarget_none found, Expr.occurrences, List.mem_singleton] at put
      subst put
      exact Or.inl ⟨rfl, fun last known => by rw [found] at known; cases known⟩
  | some last =>
      have shape := (stands found).shape_eq
      by_cases within : original.Within
      · obtain ⟨other, whole, symbol, place⟩ := replacementOf_retarget (κ := κ) found shape within
        rw [whole, Expr.occurrences, List.mem_singleton] at put
        subst put
        refine Or.inr ⟨within, by rw [symbol], ?_⟩
        rw [Atom.Within, symbol, shape, place]
        exact within
      · rw [replacementOf_retarget_outside found shape within, Expr.occurrences,
          List.mem_singleton] at put
        subst put
        exact Or.inl ⟨rfl, fun _ _ => within⟩

theorem issued_retarget (stands : ∀ {symbol last : Symbol}, ends.find? symbol = some last →
      Stands limit symbol (.ofSymbol last : Tensor κ) last) {value : Tensor κ}
    (issued : value.Issued limit) : (value.substitute (retarget ends)).Issued limit where
  length_eq := by rw [Tensor.length_substitute, Tensor.shape_substitute, issued.length_eq]
  numbers := by
    intro atom member
    obtain ⟨original, inside, ⟨rfl, _⟩ | ⟨_, found, _⟩⟩ := mem_atoms_retarget stands member
    · exact issued.numbers original inside
    · exact (stands found).issued.2

theorem placed_retarget (stands : ∀ {symbol last : Symbol}, ends.find? symbol = some last →
      Stands limit symbol (.ofSymbol last : Tensor κ) last) {value : Tensor κ}
    (placed : value.Placed) : (value.substitute (retarget ends)).Placed := by
  intro atom member
  obtain ⟨original, inside, ⟨rfl, _⟩ | ⟨_, _, within⟩⟩ := mem_atoms_retarget stands member
  · exact placed original inside
  · exact within

theorem Lawful.removeAlias (lawful : graph.Lawful limit)
    (stands : ∀ {symbol last : Symbol}, ends.find? symbol = some last →
      Stands limit symbol (.ofSymbol last : Tensor κ) last) (index : Nat) :
    (removeAlias ends graph index).Lawful limit := by
  unfold Graph.removeAlias
  split
  · exact lawful
  rename_i node live
  split
  · rename_i last found
    have removed := lawful.removeNode index
    refine ⟨removed.found, removed.current, removed.regular, removed.apart, removed.inputs, ?_⟩
    intro symbol target known
    simp only [Table.find?_insert] at known
    split at known
    · rename_i here
      cases known
      exact ⟨last, here ▸ stands found⟩
    · exact lawful.aliases known
  split
  · exact lawful.setValue live (Tensor.shape_substitute _ _)
      (issued_retarget stands (lawful.regular live).value)
  · exact lawful

theorem Placed.removeAlias (placed : graph.Placed)
    (stands : ∀ {symbol last : Symbol}, ends.find? symbol = some last →
      Stands limit symbol (.ofSymbol last : Tensor κ) last) (index : Nat) :
    (removeAlias ends graph index).Placed := by
  unfold Graph.removeAlias
  split
  · exact placed
  rename_i node live
  split
  · exact placed.removeNode index
  split
  · exact placed.setValue (placed_retarget stands (placed live).value)
  · exact placed

theorem Placed.foldl_removeAlias (placed : graph.Placed)
    (stands : ∀ {symbol last : Symbol}, ends.find? symbol = some last →
      Stands limit symbol (.ofSymbol last : Tensor κ) last) (indices : List Nat) :
    (indices.foldl (Graph.removeAlias ends) graph).Placed := by
  induction indices generalizing graph with
  | nil => exact placed
  | cons head tail ih => exact ih (placed.removeAlias stands head)

theorem Lawful.foldl_removeAlias (lawful : graph.Lawful limit)
    (stands : ∀ {symbol last : Symbol}, ends.find? symbol = some last →
      Stands limit symbol (.ofSymbol last : Tensor κ) last) (indices : List Nat) :
    (indices.foldl (Graph.removeAlias ends) graph).Lawful limit := by
  induction indices generalizing graph with
  | nil => exact lawful
  | cons head tail ih => exact ih (lawful.removeAlias stands head)

end Graph

/-- The environment in which the removed symbols have the values of their ends. -/
noncomputable def Environment.beforeRemoval (environment : Environment)
    (ends : Table Symbol Symbol) : Environment :=
  fun symbol index =>
    match ends.find? symbol with
    | none => environment symbol index
    | some last => if index < symbol.shape.size then environment last index else none

namespace Graph

variable {κ : Type} [Scalar κ] {limit : Nat} {graph after : Graph κ} {ends : Table Symbol Symbol}

theorem Renames.find?_of_isInput (renames : graph.Renames ends) (lawful : graph.Lawful limit)
    {symbol : Symbol} (isInput : graph.isInput symbol = true) : ends.find? symbol = none := by
  rw [Option.eq_none_iff_forall_ne_some]
  intro last found
  obtain ⟨node, _, defined, _⟩ := renames.definition found
  have noInput := lawful.noInput defined
  rw [isInput] at noInput
  cases noInput

theorem Renames.beforeRemoval_eq [Exact κ] (renames : graph.Renames ends)
    {environment : Environment} {symbol last : Symbol} (ended : ends.find? symbol = some last)
    {tensor : Tensor κ} (content : graph.content? symbol = some tensor) {index : Nat} {value : ℝ}
    (means : tensor.MeansAt (environment.beforeRemoval ends) index value) :
    environment.beforeRemoval ends symbol index = some value := by
  obtain ⟨node, target, defined, whole, next⟩ := renames.definition ended
  rw [content?, defined] at content
  simp only [whole, Option.some.injEq] at content
  subst content
  obtain ⟨within, known⟩ := Tensor.meansAt_ofSymbol.mp means
  have shape := renames.shape_eq ended
  rw [Environment.beforeRemoval, ended]
  rcases next with rfl | further
  · rw [Environment.beforeRemoval, renames.final ended] at known
    rw [shape] at within
    simp only [if_pos within]
    exact known
  · have same := renames.shape_eq further
    rw [Environment.beforeRemoval, further] at known
    rw [← same, shape] at within
    simp only [← same, shape, if_pos within] at known ⊢
    exact known

namespace Removed

variable (removed : Removed ends graph.liveIndices graph after) (renames : graph.Renames ends)

include removed

theorem node?_eq (index : Nat) :
    after.node? index = (graph.node? index).bind (retargeted ends) := by
  rw [removed.node]
  split
  · rfl
  · rename_i dead
    rw [mem_liveIndices, not_exists] at dead
    rw [Option.eq_none_iff_forall_ne_some.mpr dead, Option.bind_none]

theorem nodeOf?_eq (symbol : Symbol) :
    after.nodeOf? symbol = (graph.nodeOf? symbol).bind (retargeted ends) := by
  rw [Graph.nodeOf?_eq, Graph.nodeOf?_eq, removed.definitions]
  cases graph.definitions.find? symbol with
  | none => rfl
  | some index => rw [Option.bind_some, Option.bind_some, removed.node?_eq]

theorem isInput_eq (symbol : Symbol) : after.isInput symbol = graph.isInput symbol := by
  rw [isInput, removed.inputs, isInput]

theorem isDefined_iff (lawful : graph.Lawful limit) {symbol : Symbol} :
    after.isDefined symbol = true ↔ graph.isDefined symbol = true ∧ ends.find? symbol = none := by
  rw [isDefined_eq, isDefined_eq, removed.nodeOf?_eq]
  cases found : graph.nodeOf? symbol with
  | none => simp
  | some node =>
      rw [Option.bind_some, retargeted, lawful.symbol_eq found, Table.contains]
      cases ends.find? symbol with
      | none =>
          rw [if_neg (by simp)]
          split <;> simp
      | some last => simp

theorem former (lawful : graph.Lawful limit) {symbol : Symbol} {node : Node κ}
    (found : after.nodeOf? symbol = some node) :
    ∃ old, graph.nodeOf? symbol = some old ∧ ends.find? symbol = none ∧
      (node = old.withValue (old.value.substitute (retarget ends)) ∨
        node = old ∧ ∀ read ∈ old.reads, ends.find? read = none) := by
  rw [removed.nodeOf?_eq] at found
  obtain ⟨old, before, now⟩ := Option.bind_eq_some_iff.mp found
  exact ⟨old, before, lawful.symbol_eq before ▸ retargeted_eq_some now⟩

include renames

/-- What is read now was read before, or is the end of a chain whose start was read, unless it is a
renamed symbol that is read at places that it does not have. -/
theorem read_before (lawful : graph.Lawful limit) {symbol : Symbol} {node : Node κ}
    (found : after.nodeOf? symbol = some node) {read : Symbol} (member : read ∈ node.reads) :
    ∃ old, graph.nodeOf? symbol = some old ∧ ∃ original ∈ old.reads,
      original = read ∧ (ends.find? read = none ∨ ∃ last, ends.find? read = some last ∧
        ∀ atom ∈ node.value.atoms, atom.symbol = read → ¬atom.Within) ∨
      ends.find? original = some read := by
  obtain ⟨old, before, _, rfl | ⟨rfl, kept⟩⟩ := removed.former lawful found
  · refine ⟨old, before, ?_⟩
    have stands {symbol last : Symbol} (found : ends.find? symbol = some last) :
        Stands limit symbol (.ofSymbol last : Tensor κ) last := renames.stands lawful found
    obtain ⟨atom, among, rfl⟩ := Tensor.mem_symbols.mp member
    obtain ⟨original, inside, moved⟩ := mem_atoms_retarget stands among
    have reads := (lawful.regular_of_nodeOf? before).mem_reads inside
    rcases moved with ⟨rfl, _⟩ | ⟨_, ended, _⟩
    · refine ⟨_, reads, Or.inl ⟨rfl, ?_⟩⟩
      cases ended : ends.find? original.symbol with
      | none => exact Or.inl rfl
      | some last =>
          refine Or.inr ⟨last, rfl, fun other occurs same => ?_⟩
          obtain ⟨_, _, ⟨_, outside⟩ | ⟨_, again, _⟩⟩ := mem_atoms_retarget stands occurs
          · exact outside last (same ▸ ended)
          · rw [same] at again
            rw [renames.final again] at ended
            cases ended
    · exact ⟨_, reads, Or.inr ended⟩
  · exact ⟨node, before, read, member, Or.inl ⟨rfl, Or.inl (kept read member)⟩⟩

theorem acyclic (orderly : graph.Orderly limit) : after.Acyclic := by
  have lawful := orderly.toLawful
  apply orderly.acyclic.of_reads
  rintro read reader ⟨node, found, member, defined⟩
  obtain ⟨old, before, original, reads, replaced⟩ :=
    removed.read_before renames lawful found member
  have readDefined := ((removed.isDefined_iff lawful).mp defined).1
  rcases replaced with ⟨rfl, _⟩ | ended
  · exact TransGen.single ⟨old, before, reads, readDefined⟩
  · obtain ⟨target, _, targetFound, _⟩ := renames.definition ended
    rcases renames.below ended with ⟨_, path⟩ | input
    · exact path.tail ⟨old, before, reads, Graph.isDefined_iff.mpr ⟨target, targetFound⟩⟩
    · rw [lawful.apart input] at readDefined
      cases readDefined

theorem aliases_of_ends {symbol last : Symbol} (found : ends.find? symbol = some last)
    (lawful : graph.Lawful limit) :
    after.aliases.find? symbol = some (.ofSymbol last) := by
  obtain ⟨node, _, defined, _⟩ := renames.definition found
  obtain ⟨index, live, rfl⟩ := lawful.nodeOf?_iff.mp defined
  exact removed.added index (mem_liveIndices.mpr ⟨node, live⟩) node live last found

theorem settled (orderly : graph.Orderly limit) : after.Settled := by
  have lawful := orderly.toLawful
  intro symbol node found read member
  obtain ⟨old, before, original, reads, replaced⟩ :=
    removed.read_before renames lawful found member
  rw [removed.isInput_eq, removed.isDefined_iff lawful]
  rcases replaced with ⟨rfl, kept | ⟨last, ended, outside⟩⟩ | ended
  · exact (orderly.bound symbol old before original reads).imp (fun defined => ⟨defined, kept⟩)
      Or.inl
  · exact Or.inr (Or.inr ⟨⟨_, removed.aliases_of_ends renames ended lawful⟩, outside⟩)
  · exact (renames.below ended).imp (fun below => ⟨below.1, renames.final ended⟩) Or.inl

variable [Exact κ]

theorem below_of_solves (lawful : graph.Lawful limit) {inputs : Symbol → Nat → ℝ}
    {environment : Environment} (solves : after.Solves inputs environment) {symbol : Symbol}
    {index : Nat} {value : ℝ} (known : environment.beforeRemoval ends symbol index = some value) :
    environment symbol index = some value := by
  unfold Environment.beforeRemoval at known
  split at known
  · exact known
  rename_i last found
  split at known
  · rename_i within
    have missing : after.nodeOf? symbol = none := by
      rw [removed.nodeOf?_eq]
      cases before : graph.nodeOf? symbol with
      | none => rfl
      | some node =>
          rw [Option.bind_some, retargeted, lawful.symbol_eq before, Table.contains, found,
            Option.isSome_some, if_pos rfl]
    have content : after.content? symbol = some (.ofSymbol last) := by
      rw [content?, missing]
      exact removed.aliases_of_ends renames found lawful
    have noInput : after.isInput symbol = false := by
      obtain ⟨node, _, defined, _⟩ := renames.definition found
      rw [removed.isInput_eq]
      exact lawful.noInput defined
    refine solves.content noInput content (Tensor.meansAt_ofSymbol.mpr ⟨?_, known⟩)
    rwa [renames.shape_eq found]
  · cases known

theorem keeps_retarget (lawful : graph.Lawful limit) {inputs : Symbol → Nat → ℝ}
    {environment : Environment} (solves : after.Solves inputs environment) {tensor : Tensor κ}
    (placed : tensor.Placed) {index : Nat} {value : ℝ}
    (means : tensor.MeansAt (environment.beforeRemoval ends) index value) :
    (tensor.substitute (retarget ends)).MeansAt environment index value := by
  refine means.substitute fun atom member number known => ?_
  cases ended : ends.find? atom.symbol with
  | none =>
      rw [replacementOf_retarget_none ended, Expr.means_atom]
      exact removed.below_of_solves renames lawful solves known
  | some last =>
      obtain ⟨other, put, symbol, place⟩ := replacementOf_retarget (κ := κ) ended
        (renames.shape_eq ended) (placed atom member)
      rw [put, Expr.means_atom, Environment.read, symbol, place]
      rw [Environment.read, Environment.beforeRemoval, ended] at known
      simp only at known
      split at known
      · exact known
      · cases known

theorem solves_kept (lawful : graph.Lawful limit) (placed : graph.Placed)
    {inputs : Symbol → Nat → ℝ} {environment : Environment}
    (solves : after.Solves inputs environment) {symbol : Symbol}
    (ended : ends.find? symbol = none) (noInput : graph.isInput symbol = false) {tensor : Tensor κ}
    (content : graph.content? symbol = some tensor) {index : Nat} {value : ℝ}
    (means : tensor.MeansAt (environment.beforeRemoval ends) index value) :
    environment symbol index = some value := by
  have noInputAfter : after.isInput symbol = false := by rwa [removed.isInput_eq]
  have mono : tensor.MeansAt environment index value := means.mono fun atom _ number known =>
    removed.below_of_solves renames lawful solves known
  cases defined : graph.nodeOf? symbol with
  | none =>
      rw [content?, defined] at content
      refine solves.content noInputAfter ?_ mono
      rw [content?, removed.nodeOf?_eq, defined, Option.bind_none]
      rcases removed.aliases symbol with same | ⟨last, found, _⟩
      · exact same.trans content
      · rw [ended] at found
        cases found
  | some node =>
      rw [content?, defined, Option.some.injEq] at content
      subst content
      have now := removed.nodeOf?_eq symbol
      rw [defined, Option.bind_some, retargeted, lawful.symbol_eq defined, Table.contains,
        ended, if_neg (by simp)] at now
      split at now
      · refine solves.content noInputAfter (by rw [content?, now]) ?_
        exact removed.keeps_retarget renames lawful solves (placed.of_nodeOf? defined).value means
      · exact solves.content noInputAfter (by rw [content?, now]) mono

theorem refines (lawful : graph.Lawful limit) (placed : graph.Placed) (kept : Symbol → Prop) :
    Refines kept graph after := by
  intro inputs environment solves
  refine ⟨environment.beforeRemoval ends, ⟨?_, ?_⟩, fun symbol _ index value known =>
    removed.below_of_solves renames lawful solves known⟩
  · intro symbol index isInput
    rw [Environment.beforeRemoval, renames.find?_of_isInput lawful isInput]
    exact solves.input index (by rwa [removed.isInput_eq])
  · intro symbol index value tensor noInput content means
    cases ended : ends.find? symbol with
    | some last => exact renames.beforeRemoval_eq ended content means
    | none =>
        rw [Environment.beforeRemoval, ended]
        exact removed.solves_kept renames lawful placed solves ended noInput content means

end Removed

structure Eliminated (limit : Nat) (before after : Graph κ) : Prop where
  lawful : after.Lawful limit
  settled : after.Settled
  acyclic : after.Acyclic
  placed : before.Placed → after.Placed
  inputs : after.inputs = before.inputs
  store : after.store = before.store
  settings : after.settings = before.settings
  simplifier : after.simplifier = before.simplifier
  defined : ∀ symbol, after.isDefined symbol = true → before.isDefined symbol = true
  kept : ∀ symbol, before.isDefined symbol = true → after.isDefined symbol = true ∨
    ∃ last, after.aliases.find? symbol = some (.ofSymbol last) ∧
      (after.isDefined last = true ∨ after.isInput last = true)
  old : ∀ symbol, before.isDefined symbol = false →
    after.aliases.find? symbol = before.aliases.find? symbol

theorem Eliminated.refl (orderly : graph.Orderly limit) : Eliminated limit graph graph :=
  ⟨orderly.toLawful, orderly.bound.settled, orderly.acyclic, id, rfl, rfl, rfl, rfl,
    fun _ defined => defined, fun _ defined => Or.inl defined, fun _ _ => rfl⟩

theorem Removed.eliminated (removed : Removed ends graph.liveIndices graph after)
    (renames : graph.Renames ends) (orderly : graph.Orderly limit)
    (lawfulAfter : after.Lawful limit) (placed : graph.Placed → after.Placed) :
    Eliminated limit graph after where
  lawful := lawfulAfter
  settled := removed.settled renames orderly
  acyclic := removed.acyclic renames orderly
  placed := placed
  inputs := removed.inputs
  store := removed.store
  settings := removed.settings
  simplifier := removed.simplifier
  defined := fun _ defined => ((removed.isDefined_iff orderly.toLawful).mp defined).1
  kept := by
    intro symbol defined
    rw [removed.isDefined_iff orderly.toLawful]
    cases ended : ends.find? symbol with
    | none => exact Or.inl ⟨defined, rfl⟩
    | some last =>
        refine Or.inr ⟨last, removed.aliases_of_ends renames ended orderly.toLawful, ?_⟩
        rw [removed.isDefined_iff orderly.toLawful, removed.isInput_eq]
        exact (renames.below ended).imp_left fun below => ⟨below.1, renames.final ended⟩
  old := by
    intro symbol undefined
    rcases removed.aliases symbol with same | ⟨last, found, _⟩
    · exact same
    · obtain ⟨node, _, defined, _⟩ := renames.definition found
      rw [Graph.isDefined_iff.mpr ⟨node, defined⟩] at undefined
      cases undefined

theorem eliminateAliases_cases (graph : Graph κ) :
    (∀ symbol, graph.renamings.find? symbol = none) ∧ graph.eliminateAliases.1 = graph ∨
      graph.eliminateAliases.1 = graph.liveIndices.foldl (removeAlias graph.endsOf) graph := by
  unfold eliminateAliases
  simp only
  split
  · rename_i empty
    exact Or.inl ⟨fun symbol => by rw [Table.find?, List.isEmpty_iff.mp empty]; rfl, rfl⟩
  · exact Or.inr rfl

theorem eliminateAliases_eq (graph : Graph κ) :
    graph.eliminateAliases.1 = graph ∨
      graph.eliminateAliases.1 = graph.liveIndices.foldl (removeAlias graph.endsOf) graph :=
  graph.eliminateAliases_cases.imp_left And.right

theorem eliminateAliases_eliminated (orderly : graph.Orderly limit) :
    Eliminated limit graph graph.eliminateAliases.1 := by
  have renames := endsOf_renames orderly
  rcases eliminateAliases_eq graph with same | same
  · rw [same]
    exact Eliminated.refl orderly
  · have stands {symbol last : Symbol} (found : graph.endsOf.find? symbol = some last) :
        Stands limit symbol (.ofSymbol last : Tensor κ) last := renames.stands orderly.toLawful found
    rw [same]
    exact (foldl_removeAlias graph.liveIndices (nodup_liveIndices graph) graph).eliminated renames
      orderly (orderly.toLawful.foldl_removeAlias stands graph.liveIndices)
      (fun placed => placed.foldl_removeAlias stands graph.liveIndices)

theorem eliminateAliases_refines [Exact κ] (orderly : graph.Orderly limit) (placed : graph.Placed)
    (kept : Symbol → Prop) : Refines kept graph graph.eliminateAliases.1 := by
  rcases eliminateAliases_eq graph with same | same
  · rw [same]
    exact Refines.refl kept graph
  · rw [same]
    exact (foldl_removeAlias graph.liveIndices (nodup_liveIndices graph) graph).refines
      (endsOf_renames orderly) orderly.toLawful placed kept

end Graph

end Mechanism
