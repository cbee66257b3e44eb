import Mechanism.Proofs.Model.Reachability

/-!
Which symbols are inputs. Only the declaration of a symbol makes it one; and of a coordinate, the
position becomes an input before the rates do, with scalar values held back for them.
-/

open Relation (ReflTransGen)

namespace Mechanism

variable {κ : Type} [Scalar κ]

namespace Graph

open Mechanism.Graph.Action

variable {simplifier : Simplifier κ} {session later before after : Session κ} {symbol : Symbol}

theorem isInput_eq_of_inputs {first second : Graph κ} (same : second.inputs = first.inputs) :
    second.isInput symbol = first.isInput symbol := by
  rw [isInput, same, isInput]

theorem isInput_eq_of_evaluates (evaluates : ReflTransGen Evaluates before after) :
    after.graph.isInput symbol = before.graph.isInput symbol := by
  induction evaluates with
  | refl => rfl
  | tail _ last ih =>
      cases last with
      | refresh => exact ih

theorem isInput_eq_of_update {change : Graph κ → Except (GraphError κ) (Graph κ)}
    (keeps : ∀ graph, change session.graph = .ok graph →
      graph.isInput symbol = session.graph.isInput symbol) :
    ((update change).perform session).2.graph.isInput symbol = session.graph.isInput symbol := by
  rw [perform_update]
  cases changed : change session.graph with
  | error _ => rfl
  | ok graph => exact keeps graph changed

theorem isInput_eq_of_bindInput {graph after : Graph κ} {other : Symbol} {value : Tensor κ}
    (bound : bindInput other value graph = .ok after) : after.isInput symbol = graph.isInput symbol := by
  obtain ⟨_, rfl⟩ := bindInput_ok bound
  rfl

theorem isInput_eq_of_addInput {graph after : Graph κ} {other : Symbol} {categories : CategorySet}
    (differs : other ≠ symbol) (added : addInput other categories graph = .ok after) :
    after.isInput symbol = graph.isInput symbol := by
  rcases addInput_ok added with rfl | ⟨_, rfl⟩
  · rfl
  · rw [Bool.eq_iff_iff]
    exact isInput_insert.trans (or_iff_right (Ne.symm differs))

theorem isInput_eq_of_addEquation {graph after : Graph κ} {name : String} {other : Symbol}
    {value : Tensor κ} {categories : CategorySet}
    (added : addEquation name other value categories graph = .ok after) :
    after.isInput symbol = graph.isInput symbol := by
  rcases addEquation_ok added with ⟨_, rfl⟩ | ⟨_, _, _, _, rfl⟩ <;> rfl

theorem isInput_eq_of_register (name : String) (other : Symbol) (value : Tensor κ)
    (categories : CategorySet) :
    ((register name other value categories).perform session).2.graph.isInput symbol =
      session.graph.isInput symbol := by
  rw [perform_register]
  split
  · rename_i added
    exact isInput_eq_of_addEquation added
  · rfl

/-- No command but its declaration makes a symbol an input, and none makes it cease to be one. -/
theorem isInput_apply (command : Command κ) (tame : simplifier.Tame) (fit : Fit simplifier session)
    (spared : ∀ categories initial, command ≠ .declareInput symbol categories initial) :
    (command.apply session).graph.isInput symbol = session.graph.isInput symbol := by
  unfold Command.apply
  cases command with
  | issue => rfl
  | declareInput other categories initial =>
      have differs : other ≠ symbol := fun same => spared categories initial (same ▸ rfl)
      have added : ((update (addInput other categories)).perform session).2.graph.isInput symbol =
          session.graph.isInput symbol :=
        isInput_eq_of_update fun _ => isInput_eq_of_addInput differs
      unfold Command.action declareInput
      rw [perform_bind]
      rcases ran : (update (addInput other categories)).perform session with ⟨_ | _, middle⟩ <;>
        rw [ran] at added
      · exact added
      · cases initial with
        | none => exact added
        | some value =>
            exact (isInput_eq_of_update fun _ => isInput_eq_of_bindInput).trans added
  | register name other value categories =>
      rw [Command.action, perform_ignore]
      exact isInput_eq_of_register name other value categories
  | define name value categories =>
      rw [Command.action, perform_ignore, define, perform_bind, perform_freshSymbol]
      exact isInput_eq_of_register name _ value categories
  | bind other value => exact isInput_eq_of_update fun _ => isInput_eq_of_bindInput
  | query other =>
      rw [Command.action, perform_ignore]
      exact isInput_eq_of_evaluates (valueOf_evaluates session other)
  | queryNumbers other =>
      rw [Command.action, perform_ignore]
      exact isInput_eq_of_evaluates (numbersOf_evaluates session other)
  | build =>
      rw [Command.action, perform_ignore]
      rcases build_outcome fit.valid.toLawful (fit.simplifier_eq ▸ tame.toModest) with
        ⟨error, fails | fails⟩ | ⟨orderly, _, _, _, succeeds⟩
      · rw [fails]
      · rw [fails]
        rfl
      · rw [succeeds]
        have improved := optimized_improved orderly.relink (fit.simplifier_eq ▸ tame.toModest)
        exact isInput_eq_of_inputs improved.inputs
  | reduce kept =>
      rw [Command.action, perform_ignore, keepOnly, perform_bind, perform_getGraph]
      simp only
      split
      · rename_i reduced
        obtain ⟨_, indices, _, _, _, rfl⟩ := reduce_eq_ok reduced
        exact isInput_eq_of_inputs (foldl_dropNode_dropped indices session.graph).inputs
      · rfl

theorem Leads.isInput_eq {allowed : Session κ → Command κ → Prop} (leads : Leads allowed before after)
    (tame : simplifier.Tame) (reachable : Reachable simplifier before)
    (spared : ∀ session command, allowed session command →
      ∀ categories initial, command ≠ .declareInput symbol categories initial) :
    after.graph.isInput symbol = before.graph.isInput symbol := by
  induction leads with
  | start => rfl
  | step command earlier admissible isAllowed ih =>
      exact (isInput_apply command tame ((earlier.reachable reachable).fit tame)
        (spared _ command isAllowed)).trans ih

theorem Works.isInput_eq (works : Works before after) (tame : simplifier.Tame)
    (reachable : Reachable simplifier before) :
    after.graph.isInput symbol = before.graph.isInput symbol := by
  refine Leads.isInput_eq works tame reachable fun _ command plain categories initial same => ?_
  subst same
  exact plain

end Graph

namespace Model

open Mechanism.Model.Action

variable {simplifier : Simplifier κ} {session before after : Session κ} {symbol : Symbol}

theorem Declares.isInput_eq {symbols : List Symbol} (declares : Declares symbols before after)
    (tame : simplifier.Tame) (fit : Fit simplifier before) (spared : symbol ∉ symbols) :
    after.model.graph.isInput symbol = before.model.graph.isInput symbol := by
  refine declares.leads.isInput_eq tame fit.graph ?_
  rintro _ _ ⟨other, member, _, _, rfl⟩ categories initial same
  cases same
  exact spared member

/-- Only scalars are held back; and where the position of a coordinate is no input, its rates are
none either. -/
structure Tidy (session : Session κ) : Prop where
  held : ∀ {symbol : Symbol} {value : Tensor κ},
    session.model.pending.find? symbol = some value → value.shape = .scalar
  rates : ∀ {name : String} {coordinate : Coordinate},
    session.model.coordinates.find? name = some coordinate →
      session.model.graph.isInput coordinate.position = false →
        ∀ symbol ∈ coordinate.symbols, session.model.graph.isInput symbol = false

theorem Tidy.of_eq (tidy : Tidy before)
    (pending : ∀ {symbol : Symbol} {value : Tensor κ},
      after.model.pending.find? symbol = some value → before.model.pending.find? symbol = some value)
    (coordinates : after.model.coordinates = before.model.coordinates)
    (inputs : ∀ {name : String} {coordinate : Coordinate},
      before.model.coordinates.find? name = some coordinate → ∀ symbol ∈ coordinate.symbols,
        after.model.graph.isInput symbol = before.model.graph.isInput symbol) : Tidy after where
  held := fun found => tidy.held (pending found)
  rates := by
    intro name coordinate known noInput symbol member
    rw [coordinates] at known
    rw [inputs known _ (by simp [Coordinate.symbols])] at noInput
    rw [inputs known symbol member]
    exact tidy.rates known noInput symbol member

def Session.release (session : Session κ) (symbol : Symbol) : Session κ :=
  { session with model := { session.model with pending := session.model.pending.erase symbol } }

theorem perform_declareRate (symbol : Symbol) (category : Category) :
    (declareRate symbol category).perform session =
      (onGraph (Graph.declareInput symbol (.only category)
        (session.model.pending.find? symbol))).perform (session.release symbol) := by
  unfold declareRate
  rw [perform_bind, perform_getModel]
  simp only
  rw [perform_bind, perform_modifyModel]
  rfl

theorem pending_declareRate (symbol : Symbol) (category : Category) :
    ((declareRate symbol category).perform session).2.model.pending =
      session.model.pending.erase symbol := by
  rw [perform_declareRate, onGraph_later]
  rfl

theorem find?_of_erase {pending : Table Symbol (Tensor κ)} {erased : Symbol} {value : Tensor κ}
    (found : (pending.erase erased).find? symbol = some value) : pending.find? symbol = some value := by
  rw [Table.find?_erase] at found
  split at found
  · cases found
  · exact found

theorem pending_declareCoordinate {coordinate : Coordinate} {value : Tensor κ} :
    ((declareCoordinate coordinate).perform session).2.model.pending.find? symbol = some value →
      session.model.pending.find? symbol = some value := by
  refine declareCoordinate_induction (motive := fun later =>
    later.model.pending.find? symbol = some value → _) id ?_
  intro declared _ category middle kept found
  rw [pending_declareRate] at found
  exact kept (find?_of_erase found)

theorem declareRate_refused {category : Category} {error : GraphError κ}
    (refused : Graph.addInput symbol (.only category) session.model.graph = .error error) :
    (declareRate symbol category).perform session =
      (.error (.graph error), session.release symbol) := by
  rw [perform_declareRate, perform_onGraph]
  unfold Graph.declareInput
  rw [Graph.Action.perform_bind, Graph.Action.perform_update]
  have graph_eq : (graphSession (session.release symbol)).graph = session.model.graph := rfl
  rw [graph_eq, refused]
  rfl

/-- A scalar that is held back for a scalar can be bound, so that only the declaration can fail. -/
theorem declareRate_cases (held : ∀ value, session.model.pending.find? symbol = some value →
      value.shape = .scalar) (scalar : symbol.shape = .scalar) (category : Category) :
    (∃ error, Graph.addInput symbol (.only category) session.model.graph = .error error ∧
        (declareRate symbol category).perform session =
          (.error (.graph error), session.release symbol)) ∨
      ∃ later, (declareRate symbol category).perform session = (.ok ⟨⟩, later) := by
  cases added : Graph.addInput symbol (.only category) session.model.graph with
  | error error => exact .inl ⟨error, rfl, declareRate_refused added⟩
  | ok graph =>
      right
      rw [perform_declareRate, perform_onGraph]
      unfold Graph.declareInput
      rw [Graph.Action.perform_bind, Graph.Action.perform_update]
      have graph_eq : (graphSession (session.release symbol)).graph = session.model.graph := rfl
      rw [graph_eq, added]
      cases found : session.model.pending.find? symbol with
      | none => exact ⟨_, rfl⟩
      | some value =>
          simp only
          rw [Graph.Action.perform_update, Graph.bindInput_fitting (Graph.isInput_of_addInput added)
            ((held value found).trans scalar.symm)]
          exact ⟨_, rfl⟩

theorem Fit.distinct (fit : Fit simplifier session) {name : String} {coordinate : Coordinate}
    (known : session.model.coordinates.find? name = some coordinate) : coordinate.symbols.Nodup := by
  obtain ⟨number, _, rfl⟩ := fit.coordinates known
  have numbers : (List.range' number 3).Nodup := List.nodup_range'
  exact List.Nodup.of_map Symbol.number numbers

theorem declareCoordinate_new {coordinate : Coordinate}
    (new : session.model.graph.isInput coordinate.position = false) :
    (declareCoordinate coordinate).perform session = (do
      declareRate coordinate.position .state
      declareRate coordinate.velocity .state
      declareRate coordinate.acceleration .derivativeOfState : Action κ Unit).perform session := by
  rw [declareCoordinate, perform_bind, perform_getModel]
  simp only [new, Bool.false_eq_true, if_false]

theorem declareRate_or (held : ∀ value, session.model.pending.find? symbol = some value →
      value.shape = .scalar) (scalar : symbol.shape = .scalar) (category : Category)
    (noInput : session.model.graph.isInput symbol = false) :
    ∃ answer later, (declareRate symbol category).perform session = (answer, later) ∧
      (answer = .ok ⟨⟩ ∨ later.model.graph.isInput symbol = false) := by
  rcases declareRate_cases held scalar category with ⟨error, _, failed⟩ | ⟨later, declared⟩
  · exact ⟨_, _, failed, .inr noInput⟩
  · exact ⟨_, _, declared, .inl rfl⟩

/-- A declaration that stops at the position leaves the inputs as they are; one that goes on makes
the position an input, and where it stops then, one of the rates is none. -/
theorem declareCoordinate_cases (tidy : Tidy session) {coordinate : Coordinate}
    (known : session.model.coordinates.find? coordinate.name = some coordinate)
    (new : session.model.graph.isInput coordinate.position = false) (tame : simplifier.Tame)
    (fit : Fit simplifier session) :
    (∃ error, Graph.addInput coordinate.position (.only .state) session.model.graph = .error error ∧
        (declareCoordinate coordinate).perform session =
          (.error (.graph error), session.release coordinate.position)) ∨
      ∃ answer later, (declareCoordinate coordinate).perform session = (answer, later) ∧
        later.model.graph.isInput coordinate.position = true ∧
          (answer = .ok ⟨⟩ ∨
            ∃ symbol ∈ coordinate.symbols, later.model.graph.isInput symbol = false) := by
  have issued := fit.symbols known
  have noInput := tidy.rates known new
  have distinct := fit.distinct known
  simp only [Coordinate.symbols, List.forall_mem_cons] at issued noInput
  simp only [Coordinate.symbols, List.nodup_cons, List.mem_cons, List.not_mem_nil, or_false,
    not_or] at distinct
  rw [declareCoordinate_new new, perform_bind]
  rcases declareRate_cases (fun _ => tidy.held) issued.1.1 .state with
    ⟨error, refused, failed⟩ | ⟨first, declared⟩
  · rw [failed]
    exact .inl ⟨error, refused, rfl⟩
  right
  have input := isInput_of_declareRate declared
  have declares : Declares _ session _ := declareRate_declares issued.1.2 .state
  have released : _ = session.model.pending.erase coordinate.position :=
    pending_declareRate coordinate.position .state
  obtain ⟨firstFit, le, _⟩ := declared_rate declared issued.1.2 tame fit
  rw [declared] at declares released
  have others (symbol : Symbol) (differs : coordinate.position ≠ symbol) :
      first.model.graph.isInput symbol = session.model.graph.isInput symbol :=
    declares.isInput_eq tame fit fun member => differs (List.mem_singleton.mp member).symm
  rw [declared]
  simp only
  obtain ⟨answer, second, ran, outcome⟩ := declareRate_or
    (fun value found => tidy.held (find?_of_erase (released ▸ found))) issued.2.1.1 .state
    ((others _ distinct.1.1).trans noInput.2.1)
  have further : Declares _ first _ := declareRate_declares (issued.2.1.2.trans_le le) .state
  have releasedAgain : _ = first.model.pending.erase coordinate.velocity :=
    pending_declareRate coordinate.velocity .state
  obtain ⟨secondFit, more, kept⟩ := declared_rate ran (issued.2.1.2.trans_le le) tame firstFit
  rw [ran] at further releasedAgain
  rw [perform_bind, ran]
  cases answer with
  | error error =>
      refine ⟨_, _, rfl, kept _ input, .inr ⟨coordinate.velocity, by simp [Coordinate.symbols], ?_⟩⟩
      exact outcome.resolve_left fun same => by cases same
  | ok done =>
      simp only
      have still : second.model.graph.isInput coordinate.acceleration = false := by
        rw [further.isInput_eq tame firstFit fun member =>
          distinct.2.1 (List.mem_singleton.mp member).symm, others _ distinct.1.2]
        exact noInput.2.2.1
      obtain ⟨answer, third, ran, outcome⟩ := declareRate_or (fun value found =>
        tidy.held (find?_of_erase (released ▸ find?_of_erase (releasedAgain ▸ found))))
          issued.2.2.1.1 .derivativeOfState still
      obtain ⟨_, _, keptAgain⟩ :=
        declared_rate ran (issued.2.2.1.2.trans_le (le.trans more)) tame secondFit
      refine ⟨answer, third, ran, keptAgain _ (kept _ input), outcome.imp_right fun none => ?_⟩
      exact ⟨coordinate.acceleration, by simp [Coordinate.symbols], none⟩

theorem Tidy.declare (tidy : Tidy session) {coordinate : Coordinate}
    (known : session.model.coordinates.find? coordinate.name = some coordinate)
    (new : session.model.graph.isInput coordinate.position = false) (tame : simplifier.Tame)
    (fit : Fit simplifier session) :
    Tidy ((declareCoordinate coordinate).perform session).2 := by
  have declares := declareCoordinate_declares
    (fun symbol member => (fit.symbols known symbol member).2) tame fit
  refine ⟨fun found => tidy.held (pending_declareCoordinate found), ?_⟩
  intro name other otherKnown noInput symbol member
  rw [declares.parts.coordinates] at otherKnown
  by_cases same : name = coordinate.name
  · subst same
    obtain rfl := Option.some.inj (known.symm.trans otherKnown)
    rcases declareCoordinate_cases tidy known new tame fit with
      ⟨_, _, stopped⟩ | ⟨_, later, ran, input, _⟩
    · rw [stopped]
      exact tidy.rates known new symbol member
    · rw [ran] at noInput
      exact absurd (input.symm.trans noInput) (by decide)
  · have apart := fit.apart same otherKnown known
    rw [declares.isInput_eq tame fit (apart _ (by simp [Coordinate.symbols]))] at noInput
    rw [declares.isInput_eq tame fit (apart symbol member)]
    exact tidy.rates otherKnown noInput symbol member

theorem Step.tidy (step : Step before after) (tame : simplifier.Tame) (fit : Fit simplifier before)
    (tidy : Tidy before) : Tidy after := by
  cases step with
  | work works =>
      exact tidy.of_eq (fun found => found) rfl fun _ _ _ => works.isInput_eq tame fit.graph
  | input name shape categories initial =>
      refine tidy.of_eq (fun found => found) rfl fun known symbol member => ?_
      have leads : Graph.Leads (fun _ command => ∀ categories initial,
          command ≠ .declareInput symbol categories initial) (graphSession before)
            (graphSession ((before.give (.issue name shape .real)).give
              (.declareInput (before.supply.fresh name shape).1 categories initial))) := by
        refine (Graph.Leads.single (.issue name shape .real) trivial fun _ _ same => by cases same).step
          (.declareInput (before.supply.fresh name shape).1 categories initial)
          (Nat.lt_succ_self before.supply.next) ?_
        intro _ _ same
        cases same
        exact absurd (fit.symbols known _ member).2 (lt_irrefl _)
      exact leads.isInput_eq tame fit.graph fun _ _ spared => spared
  | declare known _ new => exact tidy.declare known new tame fit
  | @coordinate name new =>
      have same : before.model.coordinates.find? name = none := by simpa [Table.contains] using new
      refine ⟨tidy.held, ?_⟩
      intro other coordinate known noInput symbol member
      change (before.model.coordinates.insert _ _).find? _ = _ at known
      rw [Table.find?_insert] at known
      split at known
      · cases known
        rw [← Bool.not_eq_true]
        intro input
        have issued := (fit.graph.fit tame).valid.inputs input
        exact absurd issued (not_lt.mpr (Coordinate.mem_symbols_fresh member).2.1)
      · exact tidy.rates known noInput symbol member
  | joint => exact tidy.of_eq (fun found => found) rfl fun _ _ _ => rfl
  | @hold symbol value scalar =>
      refine ⟨fun found => ?_, tidy.rates⟩
      change (before.model.pending.insert _ _).find? _ = _ at found
      rw [Table.find?_insert] at found
      split at found
      · cases found
        exact scalar
      · exact tidy.held found
  | build =>
      exact tidy.of_eq (fun found => found) rfl fun _ _ _ =>
        Graph.isInput_apply .build tame (fit.graph.fit tame) fun _ _ same => by cases same
  | project => exact tidy.of_eq (fun found => found) rfl fun _ _ _ => rfl

theorem Steps.tidy (steps : Steps before after) (tame : simplifier.Tame)
    (fit : Fit simplifier before) (tidy : Tidy before) : Tidy after := by
  induction steps with
  | refl => exact tidy
  | tail earlier last ih => exact last.tidy tame (Steps.fit earlier tame fit) ih

variable [ScalarText κ]

theorem Move.tidy (move : Move before after) (tame : simplifier.Tame) (fit : Fit simplifier before)
    (tidy : Tidy before) : Tidy after := by
  cases move with
  | step step => exact step.tidy tame fit tidy
  | close closes =>
      exact tidy.of_eq (fun found => found) rfl fun _ _ _ =>
        (closes.serves fit).works.isInput_eq tame fit.graph
  | check checks =>
      exact tidy.of_eq (fun found => found) rfl fun _ _ _ =>
        checks.serves.works.isInput_eq tame fit.graph

theorem Moves.tidy (moves : Moves before after) (tame : simplifier.Tame)
    (fit : Fit simplifier before) (tidy : Tidy before) : Tidy after := by
  induction moves with
  | refl => exact tidy
  | tail earlier last ih => exact last.tidy tame (Moves.fit earlier tame fit) ih

theorem Command.tidy (command : Command κ) (tame : simplifier.Tame) (fit : Fit simplifier session)
    (admissible : command.Admissible session.supply) (tidy : Tidy session) :
    Tidy (command.apply session) := by
  rcases command.moves tame fit admissible with moves | ⟨kept, middle, _, moves, same⟩
  · exact moves.tidy tame fit tidy
  · rw [same]
    exact (moves.tidy tame fit tidy).of_eq (fun found => found) rfl fun _ _ _ =>
      Graph.isInput_apply (.reduce kept) tame ((moves.fit tame fit).graph.fit tame) nofun

theorem ReachableBy.tidy {allowed : Command κ → Prop}
    (reachable : ReachableBy allowed simplifier session) (tame : simplifier.Tame) :
    Tidy session := by
  induction reachable with
  | start supply made =>
      obtain ⟨rfl, _⟩ := new_ok made
      exact ⟨fun found => absurd found.symm (Option.some_ne_none _),
        fun found => absurd found.symm (Option.some_ne_none _)⟩
  | step command before admissible _ ih => exact command.tidy tame (before.fit tame) admissible ih

end Model

end Mechanism
