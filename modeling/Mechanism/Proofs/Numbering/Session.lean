import Mechanism.Graph.Extraction
import Mechanism.Graph.Values
import Mechanism.Proofs.Graph.Reachability
import Mechanism.Proofs.Numbering.Build

/-!
Actions whose numbers are moved. An action conforms to another one when, on a moved state, it
comes to the moved outcome of the other one and leaves its moved state. Every action on a graph
conforms to itself, with the symbols that it is given moved.
-/

namespace Mechanism

/-- The state of some work. A simplifier in it must not ask for numbers. -/
class Working (σ : Type) extends Numbered σ where
  Blind : σ → Prop

export Working (Blind)

def outcomeOf {α ε σ : Type} (action : ExceptT ε (StateM σ) α) (state : σ) : Except ε α × σ :=
  action.run.run state

theorem outcomeOf_bind {α β ε σ : Type} (first : ExceptT ε (StateM σ) α)
    (next : α → ExceptT ε (StateM σ) β) (state : σ) :
    outcomeOf (first >>= next) state =
      match outcomeOf first state with
      | (.ok value, later) => outcomeOf (next value) later
      | (.error error, later) => (.error error, later) := by
  change ((first.run >>= ExceptT.bindCont next).run state) = _
  rw [StateT.run_bind]
  change (match first.run.run state with | (value, later) => _) = _
  unfold outcomeOf
  rcases first.run.run state with ⟨_ | _, later⟩ <;> rfl

section Conforming

variable {α β ε σ : Type} [Numbered α] [Numbered β] [Numbered ε] [Working σ] {offset : Nat}

/-- The first action does to moved states what the second one does to states. -/
def Conforms (offset : Nat) (moved action : ExceptT ε (StateM σ) α) : Prop :=
  ∀ state, Blind state →
    outcomeOf moved (shift offset state) = shift offset (outcomeOf action state) ∧
      Blind (outcomeOf action state).2

namespace Conforms

theorem pure (value : α) :
    Conforms offset (Pure.pure (shift offset value) : ExceptT ε (StateM σ) α) (Pure.pure value) :=
  fun _ blind => ⟨rfl, blind⟩

theorem answer [Plain α] (value : α) :
    Conforms offset (Pure.pure value : ExceptT ε (StateM σ) α) (Pure.pure value) := by
  have moved : Conforms offset (Pure.pure (shift offset value) : ExceptT ε (StateM σ) α)
      (Pure.pure value) := pure value
  rwa [shift_plain, id_eq] at moved

theorem returns {value' value : α} (same : value' = shift offset value) :
    Conforms offset (Pure.pure value' : ExceptT ε (StateM σ) α) (Pure.pure value) :=
  same ▸ pure value

theorem throw (error : ε) :
    Conforms offset (MonadExcept.throw (shift offset error) : ExceptT ε (StateM σ) α)
      (MonadExcept.throw error) :=
  fun _ blind => ⟨rfl, blind⟩

variable {first first' : ExceptT ε (StateM σ) α} {next next' : α → ExceptT ε (StateM σ) β}

theorem bind (start : Conforms offset first' first)
    (rest : ∀ value, Conforms offset (next' (shift offset value)) (next value)) :
    Conforms offset (first' >>= next') (first >>= next) := by
  intro state blind
  obtain ⟨outcome, later⟩ := start state blind
  rw [outcomeOf_bind, outcomeOf_bind, outcome]
  rcases found : outcomeOf first state with ⟨error | value, between⟩
  · rw [found] at later
    exact ⟨rfl, later⟩
  · rw [found] at later
    exact rest value between later

theorem guard {condition condition' : Prop} [Decidable condition] [Decidable condition']
    (same : condition' ↔ condition) (error : ε) {rest rest' : ExceptT ε (StateM σ) β}
    (goesOn : Conforms offset rest' rest) :
    Conforms offset
      (if condition' then (MonadExcept.throw (shift offset error) : ExceptT ε (StateM σ) Unit) >>=
        fun _ => rest' else rest')
      (if condition then (MonadExcept.throw error : ExceptT ε (StateM σ) Unit) >>=
        fun _ => rest else rest) := by
  simp only [same]
  split
  · exact bind (throw error) fun _ => goesOn
  · exact goesOn

theorem get_bind {next next' : σ → ExceptT ε (StateM σ) β}
    (rest : ∀ state, Blind state → Conforms offset (next' (shift offset state)) (next state)) :
    Conforms offset (get >>= next') (get >>= next) :=
  fun state blind => rest state blind state blind

theorem set (state : σ) (blind : Blind state) :
    Conforms offset (MonadStateOf.set (shift offset state) : ExceptT ε (StateM σ) PUnit)
      (MonadStateOf.set state) :=
  fun _ _ => ⟨rfl, blind⟩

theorem lift {action action' : StateM σ α}
    (same : ∀ state, Blind state →
      action'.run (shift offset state) = (shift offset (action.run state) : α × σ) ∧
        Blind (action.run state).2) :
    Conforms offset (liftM action' : ExceptT ε (StateM σ) α) (liftM action) := by
  intro state blind
  obtain ⟨outcome, later⟩ := same state blind
  exact ⟨congrArg (fun answer : α × σ => (Except.ok answer.1, answer.2)) outcome, later⟩

theorem modify {change change' : σ → σ}
    (same : ∀ state, change' (shift offset state) = shift offset (change state))
    (keeps : ∀ state, Blind state → Blind (change state)) :
    Conforms offset (modifyGet (fun state => ((), change' state)) : ExceptT ε (StateM σ) Unit)
      (modifyGet fun state => ((), change state)) :=
  fun state blind => ⟨congrArg (Prod.mk _) (same state), keeps state blind⟩

theorem forM {γ : Type} [Numbered γ] {each each' : γ → ExceptT ε (StateM σ) PUnit} (items : List γ)
    (same : ∀ item ∈ items, Conforms offset (each' (shift offset item)) (each item)) :
    Conforms offset ((items.map (shift offset)).forM each') (items.forM each) := by
  induction items with
  | nil => exact pure ()
  | cons head tail ih =>
      refine (same head List.mem_cons_self).bind fun _ => ?_
      exact ih fun item member => same item (List.mem_cons_of_mem _ member)

theorem mapM_moved {γ : Type} {each each' : γ → ExceptT ε (StateM σ) α} (items : List γ)
    (same : ∀ item ∈ items, Conforms offset (each' item) (each item)) :
    Conforms offset (items.mapM each') (items.mapM each) := by
  induction items with
  | nil => exact pure []
  | cons head tail ih =>
      rw [List.mapM_cons, List.mapM_cons]
      refine (same head List.mem_cons_self).bind fun value => ?_
      refine (ih fun item member => same item (List.mem_cons_of_mem _ member)).bind fun rest => ?_
      exact pure (value :: rest)

theorem mapM {γ : Type} [Numbered γ] {each each' : γ → ExceptT ε (StateM σ) α} (items : List γ)
    (same : ∀ item ∈ items, Conforms offset (each' (shift offset item)) (each item)) :
    Conforms offset ((items.map (shift offset)).mapM each') (items.mapM each) := by
  rw [List.mapM_map]
  exact mapM_moved items same

end Conforms

end Conforming

namespace Graph

variable {κ : Type} [Scalar κ] {offset : Nat}

instance : Working (Session κ) where
  shift offset session := ⟨shift offset session.graph, shift offset session.supply⟩
  Blind session := session.graph.simplifier.Blind

@[simp] theorem Session.shift_graph (session : Session κ) :
    (shift offset session).graph = shift offset session.graph := rfl

@[simp] theorem Session.shift_supply (session : Session κ) :
    (shift offset session).supply = shift offset session.supply := rfl

namespace Action

variable {α : Type} [Numbered α]

theorem getGraph_conforms {next next' : Graph κ → Action κ α}
    (rest : ∀ graph, graph.simplifier.Blind →
      Conforms offset (next' (shift offset graph)) (next graph)) :
    Conforms offset (getGraph >>= next') (getGraph >>= next) :=
  fun session blind => rest session.graph blind session blind

theorem setGraph_conforms (graph : Graph κ) (blind : graph.simplifier.Blind) :
    Conforms offset (setGraph (shift offset graph)) (setGraph graph) :=
  fun _ _ => ⟨rfl, blind⟩

theorem update_conforms {change change' : Graph κ → Except (GraphError κ) (Graph κ)}
    (same : ∀ graph, change' (shift offset graph) = shift offset (change graph))
    (keeps : ∀ {graph after}, change graph = .ok after → after.simplifier = graph.simplifier) :
    Conforms offset (update change') (update change) := by
  refine getGraph_conforms fun graph blind => ?_
  rw [same]
  cases changed : change graph with
  | ok after => exact setGraph_conforms after (keeps changed ▸ blind)
  | error error => exact .throw error

theorem freshSymbol_conforms (name : String) (shape : Shape) :
    Conforms offset (freshSymbol name shape : Action κ Symbol) (freshSymbol name shape) := by
  refine fun session blind => ⟨?_, blind⟩
  have issued := SymbolSupply.fresh_shift offset session.supply name shape .real
  change (Except.ok ((shift offset session.supply).fresh name shape).1,
    (⟨shift offset session.graph, ((shift offset session.supply).fresh name shape).2⟩ : Session κ)) = _
  rw [issued]
  rfl

end Action

variable (symbol : Symbol) (value : Tensor κ) (categories : CategorySet)

theorem bindInput_conforms :
    Conforms offset (Action.update (bindInput (shift offset symbol) (shift offset value)))
      (Action.update (bindInput symbol value)) :=
  Action.update_conforms (fun graph => bindInput_shift offset graph symbol value)
    simplifier_bindInput

theorem declareInput_conforms (initial : Option (Tensor κ)) :
    Conforms offset (declareInput (shift offset symbol) categories (shift offset initial))
      (declareInput symbol categories initial) := by
  refine (Action.update_conforms (fun graph => addInput_shift offset graph symbol categories)
    simplifier_addInput).bind fun _ => ?_
  cases initial with
  | none => exact .pure ()
  | some value => exact bindInput_conforms symbol value

theorem register_conforms (name : String) :
    Conforms offset (register name (shift offset symbol) (shift offset value) categories)
      (register name symbol value categories) := by
  refine (Action.update_conforms
    (fun graph => addEquation_shift offset graph symbol name value categories)
    simplifier_addEquation).bind fun _ => ?_
  exact .pure symbol

theorem define_conforms (name : String) :
    Conforms offset (define name (shift offset value) categories) (define name value categories) :=
  (Action.freshSymbol_conforms name value.shape).bind fun symbol =>
    register_conforms symbol value categories name

instance : Numbered BuildReport := ⟨fun _ => id⟩
instance : Plain BuildReport := ⟨fun _ => rfl⟩

theorem levelsOrError_conforms (graph : Graph κ) :
    Conforms offset (shift offset graph).levelsOrError graph.levelsOrError := by
  simp only [levelsOrError, findLevels_shift, cycleError_shift]
  cases graph.findLevels with
  | ok levels => exact .answer levels
  | error cycle => exact .throw (graph.cycleError cycle)

theorem build_conforms : Conforms offset (build : Action κ BuildReport) build := by
  refine Action.getGraph_conforms fun graph blind => ?_
  rw [unbound?_shift]
  cases graph.unbound? with
  | some error => exact .throw error
  | none =>
      simp only [Option.map_none, relink_shift]
      have relinked : graph.relink.simplifier.Blind := blind
      refine (Action.setGraph_conforms _ relinked).bind fun _ => ?_
      refine (levelsOrError_conforms graph.relink).bind fun _ => ?_
      refine .get_bind fun session _ => ?_
      obtain ⟨outcome, passed⟩ : ∃ outcome, outcome = graph.relink.optimized session.supply :=
        ⟨_, rfl⟩
      have kept : outcome.graph.simplifier.Blind := by
        rw [passed, simplifier_optimized]
        exact relinked
      simp only [Session.shift_supply, optimized_shift offset graph.relink relinked, ← passed]
      refine (Conforms.set (⟨outcome.graph, outcome.supply⟩ : Session κ) kept).bind fun _ => ?_
      refine (levelsOrError_conforms outcome.graph).bind fun levels => ?_
      have finished : (outcome.graph.finished levels).simplifier.Blind := kept
      simp only [shift_plain, id_eq]
      refine (Action.setGraph_conforms _ finished).bind fun _ => ?_
      have reported := report_shift offset outcome graph.relink (outcome.graph.finished levels)
      exact reported ▸ .answer _

theorem keepOnly_conforms :
    Conforms offset (keepOnly categories : Action κ Reduction) (keepOnly categories) := by
  refine Action.getGraph_conforms fun graph blind => ?_
  rw [reduce_shift]
  cases reduced : graph.reduce categories with
  | ok outcome =>
      have kept : outcome.2.simplifier.Blind := simplifier_reduce reduced ▸ blind
      exact (Action.setGraph_conforms outcome.2 kept).bind fun _ => .pure outcome.1
  | error error => exact .throw error

section Visits

variable (graph : Graph κ)

theorem follow_shift {path : List Nat} {enter enter' : Nat → Store κ → Visit κ}
    (same : ∀ next store, enter' next (shift offset store) = shift offset (enter next store))
    (outcome : Visit κ) (read : Symbol) :
    (shift offset graph).follow path enter' (shift offset outcome) (shift offset read) =
      shift offset (graph.follow path enter outcome read) := by
  obtain ⟨store, _ | cycle⟩ := outcome
  · simp only [follow, shift_pair, shift_option, Option.map_none, liveIndex?_shift,
      Store.isCached_shift]
    cases graph.liveIndex? read with
    | none => rfl
    | some next =>
        dsimp only
        split
        · rfl
        · split
          · simp
          · exact same next store
  · rfl

theorem visit_shift (fuel : Nat) (path : List Nat) (index : Nat) (store : Store κ) :
    (shift offset graph).visit fuel path index (shift offset store) =
      shift offset (graph.visit fuel path index store) := by
  induction fuel generalizing path index store with
  | zero => rfl
  | succ fuel ih =>
      simp only [visit, shift_nodes, List.getElem?_map]
      cases graph.nodes[index]? with
      | none => rfl
      | some node =>
          let enter := fun next store => graph.visit fuel (path ++ [next]) next store
          have followed : (node.reads.map (shift offset)).foldl ((shift offset graph).follow path
              fun next store => (shift offset graph).visit fuel (path ++ [next]) next store)
              (shift offset store, none) =
                shift offset (node.reads.foldl (graph.follow path enter) (store, none)) :=
            foldl_shift offset (follow_shift graph fun next store => ih (path ++ [next]) next store)
              node.reads (store, none)
          simp only [Option.map_some, Node.shift_reads, followed]
          rcases node.reads.foldl (graph.follow path enter) (store, none) with ⟨later, _ | cycle⟩
          · have substituted := Tensor.substitute_shift offset node.value
              (Store.lookup_shift offset later)
            simp only [shift_pair, shift_option, Option.map_none, Node.shift_symbol,
              Node.shift_value, substituted, Store.insert_shift]
          · rfl

theorem refresh_shift (symbol : Symbol) (index : Nat) :
    (shift offset graph).refresh (shift offset symbol) index =
      shift offset (graph.refresh symbol index) := by
  simp only [refresh, shift_store, Store.isCached_shift, shift_nodes, List.length_map, visit_shift]
  rw [shift_ite]
  rfl

end Visits

theorem assembled_shift (target : Tensor κ) (parts : List (Symbol × Tensor κ)) :
    (shift offset target).substitute (fun atom => do
      let (_, value) ← (parts.map (shift offset)).find? fun entry => entry.1 = atom.symbol
      (value.entryAt atom.flatIndex).toOption) =
        shift offset (target.substitute fun atom => do
          let (_, value) ← parts.find? fun entry => entry.1 = atom.symbol
          (value.entryAt atom.flatIndex).toOption) := by
  refine Tensor.substitute_shift offset target fun atom => ?_
  have found : (parts.map (shift offset)).find? (fun entry => entry.1 = (shift offset atom).symbol) =
      (parts.find? fun entry => entry.1 = atom.symbol).map (shift offset) := by
    simp [List.find?_map]
  rw [found]
  cases parts.find? fun entry => entry.1 = atom.symbol <;> simp

theorem valueWith_conforms (fuel : Nat) :
    Conforms offset (valueWith fuel (shift offset symbol) : Action κ (Tensor κ))
      (valueWith fuel symbol) := by
  induction fuel generalizing symbol with
  | zero => exact Conforms.throw (GraphError.unknownSymbol symbol.name)
  | succ fuel ih =>
      refine Action.getGraph_conforms fun graph blind => ?_
      simp only [isInput_shift, liveIndex?_shift, refresh_shift, shift_store, Store.binding?_shift,
        shift_aliases, Table.find?_shift]
      split
      · have bound : ((graph.store.binding? symbol).map (shift offset)).getD
            (.ofSymbol (shift offset symbol)) =
              shift offset ((graph.store.binding? symbol).getD (.ofSymbol symbol)) := by
          cases graph.store.binding? symbol <;> simp
        rw [bound]
        exact .pure _
      · cases graph.liveIndex? symbol with
        | some index =>
            obtain ⟨store, cycle?, visited⟩ : ∃ store cycle?,
                graph.refresh symbol index = (store, cycle?) := ⟨_, _, rfl⟩
            simp only [visited, shift_pair, shift_option, Store.cached?_shift]
            have stored : Conforms offset
                (Action.setGraph { shift offset graph with store := shift offset store })
                (Action.setGraph { graph with store := store }) :=
              Action.setGraph_conforms { graph with store := store } blind
            refine Conforms.bind stored fun _ => ?_
            cases cycle? with
            | some cycle =>
                simp only [Option.map_some, shift_plain, id_eq, cycleError_shift]
                exact Conforms.throw (graph.cycleError cycle)
            | none =>
              cases store.cached? symbol with
              | some value => exact .pure value
              | none => exact Conforms.throw (GraphError.unknownSymbol symbol.name)
        | none =>
            cases graph.aliases.find? symbol with
            | none => exact Conforms.throw (GraphError.unknownSymbol symbol.name)
            | some target =>
                simp only [Option.map_some, Tensor.symbols_shift]
                refine Conforms.bind (Conforms.mapM target.symbols fun part _ =>
                  (ih part).bind fun value => Conforms.pure (part, value)) fun parts => ?_
                simp only [shift_list, assembled_shift]
                exact .pure _

theorem valueOf_conforms :
    Conforms offset (valueOf (shift offset symbol) : Action κ (Tensor κ)) (valueOf symbol) := by
  refine Action.getGraph_conforms fun graph _ => ?_
  rw [shift_aliases, Table.size_shift]
  exact valueWith_conforms symbol _

theorem numbersOf_conforms :
    Conforms offset (numbersOf (shift offset symbol) : Action κ (Option (List κ)))
      (numbersOf symbol) := by
  refine (valueOf_conforms symbol).bind fun value => ?_
  rw [Tensor.numbers?_shift]
  exact .answer _

end Graph

end Mechanism
