import Mechanism.Proofs.Graph.Inlining
import Mechanism.Proofs.Search

/-!
The removal of equations that only rename another symbol. Every chain of renamings ends at a symbol
that has a value of its own, which takes the place of all symbols of the chain.
-/

open Relation (TransGen)

namespace Mechanism

namespace Table

variable {α β : Type} [DecidableEq α]

theorem mem_keys {table : Table α β} {key : α} : key ∈ table.keys ↔ table.find? key ≠ none := by
  simp [keys, find?]

theorem find?_mk_map (keys : List α) (value : α → β) (key : α) :
    (⟨keys.map fun key => (key, value key)⟩ : Table α β).find? key =
      if key ∈ keys then some (value key) else none := by
  induction keys with
  | nil => rfl
  | cons head tail ih =>
      simp only [find?, List.map_cons, List.find?_cons] at ih ⊢
      by_cases here : head = key
      · simp [here]
      · have elsewhere : key ∈ head :: tail ↔ key ∈ tail :=
          List.mem_cons.trans (or_iff_right (Ne.symm here))
        rw [decide_eq_false here, if_congr elsewhere rfl rfl]
        exact ih

end Table

theorem Symbol.entryAt_eq {κ : Type} [Scalar κ] {symbol : Symbol} {index : Nat}
    (bound : index < symbol.shape.size) :
    ∃ atom, (symbol.entryAt index : Except AlgebraError (Expr κ)) = .ok (.atom atom) ∧
      atom.symbol = symbol ∧ atom.flatIndex = index := by
  obtain ⟨inside, position⟩ := Shape.place_inside bound
  refine ⟨symbol.atomAt (symbol.shape.place index).1 (symbol.shape.place index).2, ?_, by simp, ?_⟩
  · simp only [Symbol.entryAt, Symbol.entry, inside, ↓reduceIte]
  · rw [Symbol.flatIndex_atomAt inside, position]

theorem Symbol.toOption_entryAt_outside {κ : Type} [Scalar κ] {symbol : Symbol} {index : Nat}
    (outside : ¬index < symbol.shape.size) :
    (symbol.entryAt index : Except AlgebraError (Expr κ)).toOption = none := by
  simp [Symbol.entryAt, Symbol.entry, Shape.place_outside (not_lt.mp outside), Except.toOption]

namespace Graph

variable {κ : Type} [Scalar κ] {limit : Nat} {graph : Graph κ}

theorem find?_renamings (lawful : graph.Lawful limit) {symbol target : Symbol}
    (found : graph.renamings.find? symbol = some target) :
    ∃ node, graph.nodeOf? symbol = some node ∧ renames? node.equation = some target := by
  have sources : ∃ equation ∈ graph.equations,
      equation.symbol = symbol ∧ renames? equation = some target := by
    refine Or.resolve_left (Grouping.foldl_source (fun table : Table Symbol Symbol =>
      table.find? symbol = some target) ?_ graph.equations found) (fun none => by cases none)
    intro table equation stepped
    cases renamed : renames? equation with
    | none =>
        rw [renamed] at stepped
        exact Or.inl stepped
    | some other =>
        simp only [renamed, Table.find?_insert] at stepped
        split at stepped
        · rename_i here
          cases stepped
          exact Or.inr ⟨here, rfl⟩
        · exact Or.inl stepped
  obtain ⟨equation, member, rfl, renamed⟩ := sources
  obtain ⟨node, liveNode, rfl⟩ := List.mem_map.mp member
  obtain ⟨index, live⟩ := mem_liveNodes.mp liveNode
  exact ⟨node, lawful.nodeOf?_symbol live, renamed⟩

theorem renames?_eq_some {equation : Equation κ} {target : Symbol}
    (renamed : renames? equation = some target) :
    equation.categories.isOnly .variable = true ∧ equation.value = .ofSymbol target ∧
      target ∈ equation.value.symbols := by
  unfold renames? at renamed
  split at renamed
  · rename_i intermediate
    obtain ⟨same, _⟩ := Option.filter_eq_some_iff.mp renamed
    exact ⟨intermediate, Tensor.aliasTarget?_eq_some same⟩
  · cases renamed

theorem renamings_source (lawful : graph.Lawful limit) {symbol target : Symbol}
    (found : graph.renamings.find? symbol = some target) :
    ∃ node, graph.nodeOf? symbol = some node ∧ node.value = .ofSymbol target ∧
      target ∈ node.reads := by
  obtain ⟨node, live, renamed⟩ := find?_renamings lawful found
  obtain ⟨_, value, reads⟩ := renames?_eq_some renamed
  exact ⟨node, live, value, (lawful.regular_of_nodeOf? live).reads_eq ▸ reads⟩

theorem renamings_intermediate (lawful : graph.Lawful limit) {symbol target : Symbol}
    (found : graph.renamings.find? symbol = some target) {index : Nat} {node : Node κ}
    (live : graph.node? index = some node) (same : node.symbol = symbol) :
    node.equation.categories.isOnly .variable = true := by
  obtain ⟨other, otherLive, renamed⟩ := find?_renamings lawful found
  rw [← same, lawful.nodeOf?_symbol live, Option.some.injEq] at otherLive
  exact otherLive ▸ (renames?_eq_some renamed).1

theorem chainEnd_eq {table : Table Symbol Symbol} {count fuel : Nat} {first last : Symbol}
    (path : Search.Path table.find? count first last) (enough : count ≤ fuel) :
    chainEnd table fuel first = last := by
  induction path generalizing fuel with
  | stop final => cases fuel <;> simp [chainEnd, final]
  | step next _ ih =>
      cases fuel with
      | zero => omega
      | succ fuel =>
          rw [chainEnd, next]
          exact ih (by omega)

theorem renamings_founded (orderly : graph.Orderly limit) :
    WellFounded fun other symbol => graph.renamings.find? symbol = some other := by
  have lawful := orderly.toLawful
  constructor
  intro symbol
  induction symbol using orderly.acyclic.induction with
  | h symbol ih =>
      constructor
      intro other next
      obtain ⟨node, found, _, reads⟩ := renamings_source lawful next
      cases defined : graph.isDefined other with
      | true => exact ih other ⟨node, found, reads, defined⟩
      | false =>
          constructor
          intro _ further
          obtain ⟨node, found, _⟩ := renamings_source lawful further
          rw [isDefined_iff.mpr ⟨node, found⟩] at defined
          cases defined

def endsOf (graph : Graph κ) : Table Symbol Symbol :=
  ⟨graph.renamings.keys.map fun symbol =>
    (symbol, chainEnd graph.renamings (graph.renamings.size + 1) symbol)⟩

theorem endsOf_eq_some (orderly : graph.Orderly limit) {symbol last : Symbol} :
    graph.endsOf.find? symbol = some last ↔
      ∃ count, Search.Path graph.renamings.find? (count + 1) symbol last := by
  obtain ⟨count, final, path⟩ := Search.exists_path (renamings_founded orderly) symbol
  have enough : count ≤ graph.renamings.size + 1 := by
    refine (path.le_length fun item goes => Table.mem_keys.mpr goes).trans ?_
    simp [Table.keys, Table.size]
  rw [endsOf, Table.find?_mk_map, chainEnd_eq path enough]
  constructor
  · intro found
    split at found
    · rename_i key
      cases found
      cases path with
      | stop final => exact absurd final (Table.mem_keys.mp key)
      | step next rest => exact ⟨_, Search.Path.step next rest⟩
    · cases found
  · rintro ⟨number, other⟩
    obtain ⟨same, equal⟩ := path.unique other
    rw [if_pos, equal]
    cases other with
    | step next _ => exact Table.mem_keys.mpr (by simp [next])

theorem endsOf_eq_none {symbol : Symbol} :
    graph.endsOf.find? symbol = none ↔ graph.renamings.find? symbol = none := by
  rw [endsOf, Table.find?_mk_map, ite_eq_right_iff, Table.mem_keys]
  simp

structure Renames (graph : Graph κ) (ends : Table Symbol Symbol) : Prop where
  definition : ∀ {symbol last : Symbol}, ends.find? symbol = some last →
    ∃ node target, graph.nodeOf? symbol = some node ∧ node.value = .ofSymbol target ∧
      (target = last ∨ ends.find? target = some last)
  shape_eq : ∀ {symbol last : Symbol}, ends.find? symbol = some last → last.shape = symbol.shape
  final : ∀ {symbol last : Symbol}, ends.find? symbol = some last → ends.find? last = none
  below : ∀ {symbol last : Symbol}, ends.find? symbol = some last →
    graph.isDefined last = true ∧ TransGen graph.Reads last symbol ∨ graph.isInput last = true

theorem renamings_below (orderly : graph.Orderly limit) {count : Nat} {symbol last : Symbol}
    (path : Search.Path graph.renamings.find? (count + 1) symbol last) :
    graph.isDefined last = true ∧ TransGen graph.Reads last symbol ∨ graph.isInput last = true := by
  have lawful := orderly.toLawful
  induction count generalizing symbol with
  | zero =>
      cases path with
      | step next rest =>
          cases rest with
          | stop _ =>
              obtain ⟨node, found, _, reads⟩ := renamings_source lawful next
              rcases orderly.bound symbol node found last reads with defined | input
              · exact Or.inl ⟨defined, TransGen.single ⟨node, found, reads, defined⟩⟩
              · exact Or.inr input
  | succ count ih =>
      cases path with
      | @step _ _ other _ next rest =>
          obtain ⟨node, found, _, reads⟩ := renamings_source lawful next
          refine (ih rest).imp_left fun ⟨defined, path⟩ => ⟨defined, path.tail ?_⟩
          cases rest with
          | step further _ =>
              obtain ⟨middle, middleFound, _⟩ := renamings_source lawful further
              exact ⟨node, found, reads, isDefined_iff.mpr ⟨middle, middleFound⟩⟩

theorem renamings_shape (lawful : graph.Lawful limit) {count : Nat} {symbol last : Symbol}
    (path : Search.Path graph.renamings.find? count symbol last) : last.shape = symbol.shape := by
  induction path with
  | stop _ => rfl
  | step next _ ih =>
      obtain ⟨node, found, value, _⟩ := renamings_source lawful next
      have shape := (lawful.regular_of_nodeOf? found).shape_eq
      rw [value, lawful.symbol_eq found, Tensor.shape_ofSymbol] at shape
      exact ih.trans shape

theorem endsOf_renames (orderly : graph.Orderly limit) : graph.Renames graph.endsOf where
  definition := by
    intro symbol last found
    obtain ⟨count, path⟩ := (endsOf_eq_some orderly).mp found
    cases path with
    | @step _ _ target _ next rest =>
        obtain ⟨node, found, value, _⟩ := renamings_source orderly.toLawful next
        refine ⟨node, target, found, value, ?_⟩
        cases rest with
        | stop _ => exact Or.inl rfl
        | step further rest =>
            exact Or.inr ((endsOf_eq_some orderly).mpr ⟨_, Search.Path.step further rest⟩)
  shape_eq := by
    intro symbol last found
    obtain ⟨count, path⟩ := (endsOf_eq_some orderly).mp found
    exact renamings_shape orderly.toLawful path
  final := by
    intro symbol last found
    obtain ⟨count, path⟩ := (endsOf_eq_some orderly).mp found
    exact endsOf_eq_none.mpr path.final
  below := by
    intro symbol last found
    obtain ⟨count, path⟩ := (endsOf_eq_some orderly).mp found
    exact renamings_below orderly path

end Graph

end Mechanism
