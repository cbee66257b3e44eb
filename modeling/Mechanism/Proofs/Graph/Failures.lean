import Mechanism.Proofs.Graph.Revisions
import Mechanism.Proofs.Graph.Roles

/-!
Calls that fail. A call is refused before it has changed anything, with one exception: the declaration
of a new input together with a first value of another shape fails when the input has already been
entered.
-/

namespace Mechanism.Graph

open Mechanism.Graph.Action

variable {κ α : Type} [Scalar κ] {session later : Session κ} {error : GraphError κ}

/-- What may be refused: entering something in a graph, binding an input, removing equations, and
extracting a list of them. -/
inductive Call (κ : Type) [Scalar κ] where
  | declareInput (symbol : Symbol) (categories : CategorySet) (initial : Option (Tensor κ))
  | register (name : String) (symbol : Symbol) (value : Tensor κ) (categories : CategorySet)
  | define (name : String) (value : Tensor κ) (categories : CategorySet)
  | bind (symbol : Symbol) (value : Tensor κ)
  | reduce (kept : CategorySet)
  | extract (output excluded : CategorySet)

def Call.action : Call κ → Action κ Unit
  | declareInput symbol categories initial => Graph.declareInput symbol categories initial
  | register name symbol value categories => do
    let _ ← Graph.register name symbol value categories
  | define name value categories => do
    let _ ← Graph.define name value categories
  | bind symbol value => Action.update (bindInput symbol value)
  | reduce kept => do
    let _ ← keepOnly kept
  | extract output excluded => do
    match (← Action.getGraph).extract output excluded with
    | .ok _ => return
    | .error error => throw error

/-- The symbol is free to become an input, but the value does not fit it. -/
structure Misfit (graph : Graph κ) (symbol : Symbol) (categories : CategorySet)
    (value : Tensor κ) : Prop where
  nonempty : categories.isEmpty = false
  undefined : graph.isDefined symbol = false
  undeclared : graph.isInput symbol = false
  shape : value.shape ≠ symbol.shape

/-- The call declares an input with a first value that does not fit it. -/
def Call.Premature (graph : Graph κ) (call : Call κ) : Prop :=
  ∃ symbol categories value, call = .declareInput symbol categories (some value) ∧
    graph.Misfit symbol categories value

theorem perform_eq_error {action : Action κ α} {session : Session κ}
    (fails : (action.perform session).1.toOption = none) :
    ∃ error later, action.perform session = (.error error, later) := by
  rcases ran : action.perform session with ⟨error | value, later⟩
  · exact ⟨error, later, rfl⟩
  · rw [ran] at fails
    cases fails

/-- An action that leaves the graph alone when it fails. -/
def Action.Spares (action : Action κ α) (session : Session κ) : Prop :=
  ∀ error later, action.perform session = (.error error, later) → later.graph = session.graph

theorem spares_update (session : Session κ)
    (change : Graph κ → Except (GraphError κ) (Graph κ)) : (update change).Spares session := by
  intro error later failed
  rw [perform_update] at failed
  split at failed <;> cases failed
  rfl

theorem spares_ignore {action : Action κ α} (spares : action.Spares session) :
    (do let _ ← action : Action κ Unit).Spares session := by
  intro error later failed
  rw [perform_bind] at failed
  split at failed
  · cases failed
  · rename_i ran
    cases failed
    exact spares _ _ ran

theorem spares_register (session : Session κ) (name : String) (symbol : Symbol) (value : Tensor κ)
    (categories : CategorySet) : (register name symbol value categories).Spares session := by
  intro error later failed
  rw [perform_register] at failed
  split at failed <;> cases failed
  rfl

theorem spares_define (session : Session κ) (name : String) (value : Tensor κ)
    (categories : CategorySet) : (define name value categories).Spares session := by
  intro error later failed
  rw [define, perform_bind, perform_freshSymbol] at failed
  exact spares_register { session with supply := (session.supply.fresh name value.shape).2 } _ _ _ _
    _ _ failed

theorem spares_keepOnly (session : Session κ) (kept : CategorySet) :
    (keepOnly kept).Spares session := by
  intro error later failed
  rw [keepOnly, perform_bind, perform_getGraph] at failed
  simp only at failed
  split at failed <;> cases failed
  rfl

theorem spares_extract (session : Session κ) (output excluded : CategorySet) :
    (Call.extract output excluded : Call κ).action.Spares session := by
  intro error later failed
  rw [Call.action, perform_bind, perform_getGraph] at failed
  simp only at failed
  split at failed <;> cases failed
  rfl

theorem addInput_free {graph : Graph κ} {symbol : Symbol} {categories : CategorySet}
    (nonempty : categories.isEmpty = false) (undefined : graph.isDefined symbol = false)
    (undeclared : graph.isInput symbol = false) :
    addInput symbol categories graph =
      .ok { graph with inputs := graph.inputs.insert symbol categories, built := false } := by
  have noEquation : graph.equation? symbol = none := by
    rw [equation?_eq, Option.map_eq_none_iff]
    rwa [isDefined_eq, Option.isSome_eq_false_iff, Option.isNone_iff_eq_none] at undefined
  have noInput : graph.inputs.find? symbol = none := by
    rwa [isInput, Table.contains, Option.isSome_eq_false_iff, Option.isNone_iff_eq_none] at undeclared
  simp [addInput, nonempty, noEquation, noInput]

/-- With a first value that does not fit, a new input is entered before the value is refused. -/
theorem perform_declareInput_misfit {symbol : Symbol} {categories : CategorySet} {value : Tensor κ}
    (misfit : session.graph.Misfit symbol categories value) :
    (declareInput symbol categories (some value)).perform session =
      (.error (.shapeMismatch symbol.name symbol.shape value.shape),
        { session with graph := { session.graph with
          inputs := session.graph.inputs.insert symbol categories, built := false } }) := by
  have declared : ({ session.graph with
      inputs := session.graph.inputs.insert symbol categories, built := false } :
      Graph κ).isInput symbol = true := isInput_insert.mpr (Or.inl rfl)
  rw [declareInput.eq_def, perform_bind, perform_update,
    addInput_free misfit.nonempty misfit.undefined misfit.undeclared]
  simp only
  rw [perform_update, bindInput_misshapen declared misfit.shape]

theorem addInput_cases {graph after : Graph κ} {symbol : Symbol} {categories : CategorySet}
    (added : addInput symbol categories graph = .ok after) :
    after = graph ∨ categories.isEmpty = false ∧ graph.isDefined symbol = false ∧
      graph.isInput symbol = false := by
  rcases addInput_ok added with same | ⟨undefined, _⟩
  · exact Or.inl same
  unfold addInput at added
  split at added
  · cases added
  rename_i nonempty
  split at added
  · cases added
  · split at added <;> cases added
    exact Or.inl rfl
  · rename_i undeclared
    exact Or.inr ⟨Bool.not_eq_true _ ▸ nonempty, undefined, by
      rw [isInput, Table.contains, undeclared, Option.isSome_none]⟩

/-- Otherwise a refused declaration leaves the graph alone: the symbol was refused, or it has been an
input of these categories before. -/
theorem spares_declareInput {symbol : Symbol} {categories : CategorySet}
    {initial : Option (Tensor κ)}
    (fits : ∀ value, initial = some value → ¬session.graph.Misfit symbol categories value) :
    (declareInput symbol categories initial).Spares session := by
  intro error later failed
  rw [declareInput.eq_def, perform_bind, perform_update] at failed
  cases added : addInput symbol categories session.graph with
  | error refusal =>
      simp only [added] at failed
      cases failed
      rfl
  | ok graph =>
      simp only [added] at failed
      cases initial with
      | none => cases failed
      | some value =>
          have unbound := spares_update { session with graph := graph } _ _ _ failed
          rw [unbound]
          rcases addInput_cases added with same | ⟨nonempty, undefined, undeclared⟩
          · exact same
          · by_cases shape : value.shape = symbol.shape
            · rw [perform_update, bindInput_fitting (isInput_of_addInput added) shape] at failed
              cases failed
            · exact absurd ⟨nonempty, undefined, undeclared, shape⟩ (fits value rfl)

theorem Call.spares {call : Call κ} (timely : ¬call.Premature session.graph) :
    call.action.Spares session := by
  cases call with
  | declareInput symbol categories initial =>
      apply spares_declareInput
      rintro value rfl misfit
      exact timely ⟨symbol, categories, value, rfl, misfit⟩
  | register name symbol value categories =>
      exact spares_ignore (spares_register session name symbol value categories)
  | define name value categories => exact spares_ignore (spares_define session name value categories)
  | bind symbol value => exact spares_update session _
  | reduce kept => exact spares_ignore (spares_keepOnly session kept)
  | extract output excluded => exact spares_extract session output excluded

/-- Whatever call fails, the graph is as it was before, unless the call was to declare a new input
with a first value of another shape. Such a call fails over the shape, and all that it has changed is
that the symbol is an input now and that the graph has to be built again. -/
theorem failed_call {call : Call κ} (failed : call.action.perform session = (.error error, later)) :
    (¬call.Premature session.graph → later.graph = session.graph) ∧
      ∀ symbol categories value, call = .declareInput symbol categories (some value) →
        session.graph.Misfit symbol categories value →
          error = .shapeMismatch symbol.name symbol.shape value.shape ∧
          later.graph = { session.graph with
            inputs := session.graph.inputs.insert symbol categories, built := false } := by
  refine ⟨fun timely => Call.spares timely error later failed, ?_⟩
  rintro symbol categories value rfl misfit
  rw [Call.action, perform_declareInput_misfit misfit] at failed
  cases failed
  exact ⟨rfl, rfl⟩

namespace Chained

/-- A vector of two entries, which no scalar can have as its value. -/
noncomputable def couple : Tensor RealNumber := ⟨.vector 2, [.one, .one]⟩

theorem misfit : probed.graph.Misfit s (.only .state) couple where
  nonempty := by decide
  undefined := by with_unfolding_all decide
  undeclared := by with_unfolding_all decide
  shape := by decide

end Chained

theorem failed_call_chained :
    (∃ error later, (Call.reduce (.only .userExpression)).action.perform Chained.probed =
      (.error error, later) ∧ later.graph = Chained.probed.graph) ∧
    ∃ error later, (Call.declareInput Chained.s (.only .state)
      (some Chained.couple)).action.perform Chained.probed = (.error error, later) ∧
        error = .shapeMismatch "s" .scalar (.vector 2) ∧
        later.graph.isInput Chained.s = true := by
  constructor
  · obtain ⟨error, later, refused⟩ := perform_eq_error
      (show ((Call.reduce (.only .userExpression)).action.perform Chained.probed).1.toOption = none
        by with_unfolding_all decide)
    exact ⟨error, later, refused, (failed_call refused).1 nofun⟩
  · have refused : (Call.declareInput Chained.s (.only .state)
        (some Chained.couple)).action.perform Chained.probed = _ :=
      perform_declareInput_misfit Chained.misfit
    obtain ⟨same, entered⟩ := (failed_call refused).2 _ _ _ rfl Chained.misfit
    exact ⟨_, _, refused, same, by rw [entered]; exact isInput_insert.mpr (Or.inl rfl)⟩

/-- A declaration that fails after it has entered its symbol: the build has to be made again, and the
symbol is an input. -/
theorem misfit_entered : ∃ error later, Reachable Simplifier.keep Chained.probed ∧
    (declareInput Chained.s (.only .state) (some Chained.couple)).perform Chained.probed =
      (.error error, later) ∧
    Chained.probed.graph.isInput Chained.s = false ∧ later.graph.isInput Chained.s = true ∧
    Chained.probed.graph.built = true ∧ later.graph.built = false :=
  ⟨_, _, Chained.reachable_built.step (.issue "s" .scalar .real) trivial,
    perform_declareInput_misfit Chained.misfit, Chained.misfit.undeclared,
    isInput_insert.mpr (Or.inl rfl), by with_unfolding_all decide, rfl⟩

end Mechanism.Graph
