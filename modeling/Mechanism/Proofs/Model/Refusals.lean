import Mechanism.Proofs.Loop.Attempts
import Mechanism.Proofs.Loop.Completeness
import Mechanism.Proofs.Model.Repetition

/-!
Requests to close a loop that are refused. The drivers of the loop may have become inputs by then,
and what had been registered for it stays; nothing else is left behind.
-/

namespace Mechanism

variable {κ : Type} [Scalar κ]

/-! ### Graphs in which symbols become inputs -/

namespace Graph

open Mechanism.Graph.Action

/-- Some of the symbols have become inputs, with values or without, and nothing else has changed but
what is cached. -/
structure Claims (symbols : List Symbol) (before after : Graph κ) : Prop where
  rest : after = { before with inputs := after.inputs, store := after.store, built := after.built }
  lasting : ∀ symbol, before.isInput symbol = true →
    after.inputs.find? symbol = before.inputs.find? symbol
  inputs : ∀ symbol, symbol ∉ symbols → after.inputs.find? symbol = before.inputs.find? symbol
  bindings : ∀ symbol, symbol ∉ symbols →
    after.store.binding? symbol = before.store.binding? symbol

variable {symbols more : List Symbol} {first second third before after : Graph κ} {symbol : Symbol}

theorem binding?_invalidate (graph : Graph κ) (symbol other : Symbol) :
    (graph.invalidate symbol).store.binding? other = graph.store.binding? other :=
  congrArg (fun table => Table.find? table other)
    (Store.keeps_evict (graph.dependents symbol) graph.store).bindings

namespace Claims

theorem refl (symbols : List Symbol) (graph : Graph κ) : Claims symbols graph graph :=
  ⟨rfl, fun _ _ => rfl, fun _ _ => rfl, fun _ _ => rfl⟩

theorem isInput (claims : Claims symbols before after) (input : before.isInput symbol = true) :
    after.isInput symbol = true := by
  rw [Graph.isInput, Table.contains, claims.lasting symbol input]
  exact input

theorem trans (left : Claims symbols first second) (right : Claims symbols second third) :
    Claims symbols first third where
  rest := by rw [right.rest, left.rest]
  lasting := fun symbol input =>
    (right.lasting symbol (left.isInput input)).trans (left.lasting symbol input)
  inputs := fun symbol apart => (right.inputs symbol apart).trans (left.inputs symbol apart)
  bindings := fun symbol apart => (right.bindings symbol apart).trans (left.bindings symbol apart)

theorem addInput (member : symbol ∈ symbols) {categories : CategorySet}
    (added : Graph.addInput symbol categories before = .ok after) : Claims symbols before after := by
  unfold Graph.addInput at added
  split at added
  · cases added
  split at added
  · cases added
  · split at added <;> cases added
    exact .refl symbols before
  · rename_i new
    cases added
    have apart {other : Symbol} (differs : symbol ≠ other) :
        (before.inputs.insert symbol categories).find? other = before.inputs.find? other := by
      rw [Table.find?_insert, if_neg differs]
    refine ⟨rfl, fun other input => apart ?_, fun other outside => apart ?_, fun _ _ => rfl⟩
    · rintro rfl
      rw [Graph.isInput, Table.contains, new] at input
      cases input
    · rintro rfl
      exact outside member

theorem bindInput (member : symbol ∈ symbols) {value : Tensor κ}
    (bound : Graph.bindInput symbol value before = .ok after) : Claims symbols before after := by
  obtain ⟨_, rfl⟩ := bindInput_ok bound
  refine ⟨rfl, fun _ _ => rfl, fun _ _ => rfl, fun other outside => ?_⟩
  refine (binding?_invalidate _ symbol other).trans ?_
  change (before.store.bindings.insert symbol value).find? other = before.store.bindings.find? other
  rw [Table.find?_insert, if_neg]
  rintro rfl
  exact outside member

end Claims

/-- A symbol that is defined or an input is left as it is; any other one becomes an input. -/
theorem addInput_trichotomy (graph : Graph κ) (symbol : Symbol) {categories : CategorySet}
    (nonempty : categories.isEmpty = false) :
    (∃ error, addInput symbol categories graph = .error error) ∧
        (graph.isDefined symbol = true ∨ graph.isInput symbol = true) ∨
      addInput symbol categories graph = .ok graph ∧ graph.isInput symbol = true ∨
      graph.Vacant symbol ∧ addInput symbol categories graph =
        .ok { graph with inputs := graph.inputs.insert symbol categories, built := false } := by
  unfold addInput
  rw [nonempty, if_neg Bool.false_ne_true, equation?_eq]
  cases found : graph.nodeOf? symbol with
  | some node => exact .inl ⟨⟨_, rfl⟩, .inl (isDefined_iff.mpr ⟨node, found⟩)⟩
  | none =>
      cases known : graph.inputs.find? symbol with
      | none =>
          refine .inr (.inr ⟨⟨?_, ?_⟩, rfl⟩)
          · rw [isDefined_eq, found]
            rfl
          · rw [Graph.isInput, Table.contains, known]
            rfl
      | some existing =>
          have input : graph.isInput symbol = true := by
            rw [Graph.isInput, Table.contains, known]
            rfl
          by_cases same : existing = categories
          · exact .inr (.inl ⟨by simp [same], input⟩)
          · exact .inl ⟨⟨_, if_neg same⟩, .inr input⟩

theorem claims_update {session : Session κ} {change : Graph κ → Except (GraphError κ) (Graph κ)}
    (claims : ∀ graph, change session.graph = .ok graph → Claims symbols session.graph graph) :
    Claims symbols session.graph ((update change).perform session).2.graph := by
  rw [perform_update]
  cases changed : change session.graph with
  | error _ => exact .refl _ _
  | ok graph => exact claims graph changed

theorem claims_declareInput {session : Session κ} (member : symbol ∈ symbols)
    (categories : CategorySet) (initial : Option (Tensor κ)) :
    Claims symbols session.graph
      ((Command.declareInput symbol categories initial).apply session).graph := by
  have added : Claims symbols session.graph
      ((update (addInput symbol categories)).perform session).2.graph :=
    claims_update fun _ => .addInput member
  unfold Command.apply Command.action declareInput
  rw [perform_bind]
  rcases ran : (update (addInput symbol categories)).perform session with ⟨_ | _, middle⟩ <;>
    rw [ran] at added
  · exact added
  · cases initial with
    | none => exact added
    | some value => exact added.trans (claims_update fun _ => .bindInput member)

theorem claims_of_leads {start later : Session κ}
    (leads : Leads (fun _ command => ∃ symbol ∈ symbols, ∃ categories initial,
      command = .declareInput symbol categories initial) start later) :
    Claims symbols start.graph later.graph := by
  induction leads with
  | start => exact .refl _ _
  | step command _ _ isAllowed ih =>
      obtain ⟨symbol, member, categories, initial, rfl⟩ := isAllowed
      exact ih.trans (claims_declareInput member categories initial)

end Graph

namespace Model

open Mechanism.Model.Action

variable {α β : Type} {simplifier : Simplifier κ} {session later before middle after : Session κ}

/-! ### Drivers -/

/-- What becomes of a symbol of a driver: it is left as it is, or becomes an input with the value
that was held back for it. If an equation defines it, only that value is given up. -/
inductive Handed (symbol : Symbol) (before after : Session κ) : Prop where
  | kept (inputs : after.model.graph.inputs.find? symbol = before.model.graph.inputs.find? symbol)
      (bindings : after.model.graph.store.binding? symbol =
        before.model.graph.store.binding? symbol)
      (pending : after.model.pending.find? symbol = before.model.pending.find? symbol)
  | declared (vacant : before.model.graph.Vacant symbol) (category : Category)
      (inputs : after.model.graph.inputs.find? symbol = some (.only category))
      (bindings : after.model.graph.store.binding? symbol = before.model.pending.find? symbol)
      (pending : after.model.pending.find? symbol = none)
  | dropped (defined : before.model.graph.isDefined symbol = true)
      (inputs : after.model.graph.inputs.find? symbol = before.model.graph.inputs.find? symbol)
      (bindings : after.model.graph.store.binding? symbol =
        before.model.graph.store.binding? symbol)
      (pending : after.model.pending.find? symbol = none)

namespace Handed

variable {symbol : Symbol}

theorem refl (symbol : Symbol) (session : Session κ) : Handed symbol session session :=
  .kept rfl rfl rfl

theorem trans (same : middle.model.graph.isDefined symbol = before.model.graph.isDefined symbol)
    (left : Handed symbol before middle) (right : Handed symbol middle after) :
    Handed symbol before after := by
  cases left with
  | kept inputs bindings pending =>
      cases right with
      | kept inputs' bindings' pending' =>
          exact .kept (inputs'.trans inputs) (bindings'.trans bindings) (pending'.trans pending)
      | declared vacant category inputs' bindings' pending' =>
          refine .declared ⟨same ▸ vacant.undefined, ?_⟩ category inputs' (bindings'.trans pending)
            pending'
          have noInput := vacant.noInput
          rwa [Graph.isInput, Table.contains, inputs] at noInput
      | dropped defined inputs' bindings' pending' =>
          exact .dropped (same ▸ defined) (inputs'.trans inputs) (bindings'.trans bindings) pending'
  | declared vacant category inputs bindings pending =>
      cases right with
      | kept inputs' bindings' pending' =>
          exact .declared vacant category (inputs'.trans inputs) (bindings'.trans bindings)
            (pending'.trans pending)
      | declared again =>
          have noInput := again.noInput
          rw [Graph.isInput, Table.contains, inputs] at noInput
          cases noInput
      | dropped _ inputs' bindings' pending' =>
          exact .declared vacant category (inputs'.trans inputs) (bindings'.trans bindings) pending'
  | dropped defined inputs bindings pending =>
      cases right with
      | kept inputs' bindings' pending' =>
          exact .dropped defined (inputs'.trans inputs) (bindings'.trans bindings)
            (pending'.trans pending)
      | declared vacant =>
          have undefined := vacant.undefined
          rw [same, defined] at undefined
          cases undefined
      | dropped _ inputs' bindings' pending' =>
          exact .dropped defined (inputs'.trans inputs) (bindings'.trans bindings) pending'

theorem congr (handed : Handed symbol before middle)
    (inputs : after.model.graph.inputs.find? symbol = middle.model.graph.inputs.find? symbol)
    (bindings : after.model.graph.store.binding? symbol =
      middle.model.graph.store.binding? symbol)
    (pending : after.model.pending.find? symbol = middle.model.pending.find? symbol) :
    Handed symbol before after := by
  cases handed with
  | kept inputs' bindings' pending' =>
      exact .kept (inputs.trans inputs') (bindings.trans bindings') (pending.trans pending')
  | declared vacant category inputs' bindings' pending' =>
      exact .declared vacant category (inputs.trans inputs') (bindings.trans bindings')
        (pending.trans pending')
  | dropped defined inputs' bindings' pending' =>
      exact .dropped defined (inputs.trans inputs') (bindings.trans bindings')
        (pending.trans pending')

theorem released (handed : Handed symbol before after)
    (noInput : before.model.graph.isInput symbol = false)
    (input : after.model.graph.isInput symbol = true) :
    after.model.pending.find? symbol = none := by
  cases handed with
  | kept inputs =>
      rw [Graph.isInput, Table.contains, inputs] at input
      exact absurd (noInput.symm.trans input) Bool.false_ne_true
  | declared _ _ _ _ pending => exact pending
  | dropped _ _ _ pending => exact pending

end Handed

theorem handed_declareRate {symbol : Symbol}
    (held : ∀ value, session.model.pending.find? symbol = some value → value.shape = .scalar)
    (scalar : symbol.shape = .scalar)
    (unbound : session.model.graph.isInput symbol = false →
      session.model.graph.store.binding? symbol = none)
    (released : session.model.graph.isInput symbol = true →
      session.model.pending.find? symbol = none) (category : Category) :
    Handed symbol session ((declareRate symbol category).perform session).2 := by
  have erased : (session.model.pending.erase symbol).find? symbol = none := by
    rw [Table.find?_erase, if_pos rfl]
  rcases Graph.addInput_trichotomy session.model.graph symbol
    (show (CategorySet.only category).isEmpty = false by cases category <;> rfl) with
    ⟨⟨error, refused⟩, defined | input⟩ | ⟨same, input⟩ | ⟨vacant, added⟩
  · rw [declareRate_refused refused]
    exact .dropped defined rfl rfl erased
  · rw [declareRate_refused refused]
    exact .kept rfl rfl (erased.trans (released input).symm)
  · rw [perform_declareRate, onGraph_later, released input]
    unfold Graph.declareInput
    rw [Graph.Action.perform_bind, Graph.Action.perform_update,
      show (graphSession (session.release symbol)).graph = session.model.graph from rfl, same]
    exact .kept rfl rfl (erased.trans (released input).symm)
  · rw [perform_declareRate, onGraph_later]
    unfold Graph.declareInput
    rw [Graph.Action.perform_bind, Graph.Action.perform_update,
      show (graphSession (session.release symbol)).graph = session.model.graph from rfl, added]
    have entered : (session.model.graph.inputs.insert symbol (.only category)).find? symbol =
        some (.only category) := by rw [Table.find?_insert, if_pos rfl]
    cases found : session.model.pending.find? symbol with
    | none =>
        have unheld := (unbound vacant.noInput).trans found.symm
        exact .declared vacant category entered unheld erased
    | some value =>
        simp only
        rw [Graph.Action.perform_update, Graph.bindInput_fitting
          (Graph.isInput_insert.mpr (.inl rfl)) ((held value found).trans scalar.symm)]
        refine .declared vacant category entered ?_ erased
        refine (Graph.binding?_invalidate _ symbol symbol).trans ?_
        rw [found, Graph.Store.binding?, Graph.Store.bind, Table.find?_insert, if_pos rfl]

/-- Some of the symbols have become inputs, with the values that were held back for them. -/
structure Readies (symbols : List Symbol) (before after : Session κ) : Prop
    extends Declares symbols before after where
  pending : ∀ symbol, symbol ∉ symbols →
    after.model.pending.find? symbol = before.model.pending.find? symbol

theorem Declares.claims {symbols : List Symbol} (declares : Declares symbols before after) :
    Graph.Claims symbols before.model.graph after.model.graph :=
  Graph.claims_of_leads declares.leads

theorem Declares.isDefined_eq {symbols : List Symbol} (declares : Declares symbols before after)
    (symbol : Symbol) :
    after.model.graph.isDefined symbol = before.model.graph.isDefined symbol := by
  rw [declares.claims.rest]
  rfl

theorem handed_declareCoordinate {coordinate : Coordinate} (tidy : Tidy session)
    (known : session.model.coordinates.find? coordinate.name = some coordinate)
    (tame : simplifier.Tame) (fit : Fit simplifier session) (symbol : Symbol) :
    Handed symbol session ((declareCoordinate coordinate).perform session).2 := by
  cases input : session.model.graph.isInput coordinate.position with
  | true =>
      rw [declareCoordinate_input input]
      exact .refl symbol session
  | false =>
      have noInput := tidy.rates known input
      have issued := fit.symbols known
      refine (declareCoordinate_induction (motive := fun middle =>
        Declares coordinate.symbols session middle ∧
          (∀ {symbol : Symbol} {value : Tensor κ}, middle.model.pending.find? symbol = some value →
            session.model.pending.find? symbol = some value) ∧ Handed symbol session middle)
        ⟨.refl _ session, id, .refl symbol session⟩ ?_).2.2
      rintro declared member category middle ⟨declares, pending, handed⟩
      have le := declares.advances.supply_le tame fit.graph
      have last : Declares [declared] middle _ :=
        declareRate_declares ((issued declared member).2.trans_le le) category
      have released : _ = middle.model.pending.erase declared := pending_declareRate declared category
      refine ⟨declares.trans (last.mono fun other same => List.mem_singleton.mp same ▸ member),
        fun found => pending (find?_of_erase (released ▸ found)),
        handed.trans (declares.isDefined_eq symbol) ?_⟩
      by_cases here : declared = symbol
      · subst here
        refine handed_declareRate (fun value found => tidy.held (pending found)) (issued _ member).1
          (fun none => ?_) (handed.released (noInput _ member)) category
        rw [← Option.not_isSome_iff_eq_none, Option.isSome_iff_exists]
        rintro ⟨value, bound⟩
        have valid := ((declares.fit tame fit).graph.fit tame).valid
        exact Bool.false_ne_true (none.symm.trans (valid.coherent.bound bound))
      · have apart : symbol ∉ [declared] := fun among => here (List.mem_singleton.mp among).symm
        refine .kept (last.claims.inputs symbol apart) (last.claims.bindings symbol apart) ?_
        rw [released, Table.find?_erase, if_neg here]

theorem handed_declareDrivers {drivers : List Coordinate} (tidy : Tidy session)
    (known : ∀ coordinate ∈ drivers,
      session.model.coordinates.find? coordinate.name = some coordinate)
    (tame : simplifier.Tame) (fit : Fit simplifier session) (symbol : Symbol) :
    Handed symbol session ((drivers.forM declareDriver).perform session).2 := by
  induction drivers generalizing session with
  | nil => exact .refl symbol session
  | cons head tail ih =>
      rw [List.forall_mem_cons] at known
      have first : Declares head.symbols session ((declareDriver head).perform session).2 ∧
          Tidy ((declareDriver head).perform session).2 ∧
            Handed symbol session ((declareDriver head).perform session).2 := by
        rw [declareDriver, perform_bind, perform_getModel]
        simp only
        cases session.model.isClosed head with
        | true => exact ⟨.refl _ session, tidy, .refl symbol session⟩
        | false =>
            refine ⟨declareCoordinate_declares (fun symbol member => (fit.symbols known.1 symbol
              member).2) tame fit, ?_, handed_declareCoordinate tidy known.1 tame fit symbol⟩
            cases input : session.model.graph.isInput head.position with
            | true =>
                change Tidy ((declareCoordinate head).perform session).2
                rwa [declareCoordinate_input input]
            | false => exact tidy.declare known.1 input tame fit
      rw [List.forM, perform_bind]
      rcases ran : (declareDriver head).perform session with ⟨_ | _, middle⟩ <;> rw [ran] at first
      · exact first.2.2
      · obtain ⟨declares, stillTidy, handed⟩ := first
        exact handed.trans (declares.isDefined_eq symbol) (ih stillTidy
          (declares.parts.coordinates ▸ known.2) (declares.fit tame fit))

theorem Readies.refl (symbols : List Symbol) (session : Session κ) : Readies symbols session session :=
  ⟨.refl symbols session, fun _ _ => rfl⟩

theorem Readies.trans {symbols : List Symbol} (left : Readies symbols before middle)
    (right : Readies symbols middle after) : Readies symbols before after :=
  ⟨left.toDeclares.trans right.toDeclares,
    fun symbol apart => (right.pending symbol apart).trans (left.pending symbol apart)⟩

theorem readies_declareCoordinate {coordinate : Coordinate} {symbols : List Symbol}
    (known : session.model.coordinates.find? coordinate.name = some coordinate)
    (within : ∀ symbol ∈ coordinate.symbols, symbol ∈ symbols) (tame : simplifier.Tame)
    (fit : Fit simplifier session) :
    Readies symbols session ((declareCoordinate coordinate).perform session).2 where
  toDeclares := (declareCoordinate_declares (fun symbol member => (fit.symbols known symbol member).2)
    tame fit).mono within
  pending := by
    intro symbol apart
    refine declareCoordinate_induction (motive := fun later =>
      later.model.pending.find? symbol = session.model.pending.find? symbol) rfl ?_
    intro declared member category middle kept
    rw [pending_declareRate, Table.find?_erase, if_neg, kept]
    rintro rfl
    exact apart (within _ member)

theorem readies_declareDrivers {drivers : List Coordinate} {symbols : List Symbol}
    (known : ∀ coordinate ∈ drivers,
      session.model.coordinates.find? coordinate.name = some coordinate)
    (within : ∀ coordinate ∈ drivers, session.model.isClosed coordinate = false →
      ∀ symbol ∈ coordinate.symbols, symbol ∈ symbols) (tame : simplifier.Tame)
    (fit : Fit simplifier session) :
    Readies symbols session ((drivers.forM declareDriver).perform session).2 := by
  induction drivers generalizing session with
  | nil => exact .refl symbols session
  | cons head tail ih =>
      rw [List.forall_mem_cons] at known within
      have first : Readies symbols session ((declareDriver head).perform session).2 := by
        rw [declareDriver, perform_bind, perform_getModel]
        simp only
        cases closed : session.model.isClosed head with
        | true => exact .refl symbols session
        | false => exact readies_declareCoordinate known.1 (within.1 closed) tame fit
      rw [List.forM, perform_bind]
      rcases ran : (declareDriver head).perform session with ⟨_ | _, middle⟩ <;> rw [ran] at first
      · exact first
      · have parts := first.parts
        refine first.trans (ih (parts.coordinates ▸ known.2) (fun coordinate member closed => ?_)
          (first.fit tame fit))
        rw [isClosed, parts.closedBy] at closed
        exact within.2 coordinate member closed

theorem declareDrivers_settled {drivers : List Coordinate}
    (roles : ∀ coordinate ∈ drivers, session.model.HasRole coordinate) :
    (drivers.forM declareDriver).perform session = (.ok ⟨⟩, session) := by
  induction drivers with
  | nil => rfl
  | cons head tail ih =>
      rw [List.forall_mem_cons] at roles
      have first : (declareDriver head).perform session = (.ok ⟨⟩, session) := by
        rw [declareDriver, perform_bind, perform_getModel]
        simp only
        cases closed : session.model.isClosed head with
        | true => rfl
        | false =>
            have open_ : ¬session.model.isClosed head = true := by simp [closed]
            exact declareCoordinate_input (roles.1.resolve_left open_)
      rw [List.forM, perform_bind, first]
      exact ih roles.2

/-! ### What is left behind -/

/-- A symbol of a coordinate that drives the loop, which no loop determines. -/
def Drives (model : Model κ) (request : Loop.Request κ) (symbol : Symbol) : Prop :=
  ∃ coordinate, model.MovesOneOf request.independent coordinate ∧
    model.isClosed coordinate = false ∧ symbol ∈ coordinate.symbols

/-- A symbol of a coordinate that the loop is to determine, or a new one. -/
def MayDefine (session : Session κ) (request : Loop.Request κ) (symbol : Symbol) : Prop :=
  (∃ coordinate, session.model.MovesOneOf request.dependent coordinate ∧
    symbol ∈ coordinate.symbols) ∨ session.supply.next ≤ symbol.number

/-- What a refused request may leave behind: a symbol of its drivers may have become an input, with
the value that was held back for it, and there may be internal equations for symbols that were
neither defined nor inputs. Everything else is as it was. -/
structure Leaves (request : Loop.Request κ) (before after : Session κ) : Prop where
  rest : after.model =
    { before.model with graph := after.model.graph, pending := after.model.pending }
  lasting : ∀ symbol, before.model.graph.isInput symbol = true →
    after.model.graph.inputs.find? symbol = before.model.graph.inputs.find? symbol
  inputs : ∀ symbol, ¬before.model.Drives request symbol →
    after.model.graph.inputs.find? symbol = before.model.graph.inputs.find? symbol
  bindings : ∀ symbol, ¬before.model.Drives request symbol →
    after.model.graph.store.binding? symbol = before.model.graph.store.binding? symbol
  pending : ∀ symbol, ¬before.model.Drives request symbol →
    after.model.pending.find? symbol = before.model.pending.find? symbol
  drivers : ∀ symbol, before.model.Drives request symbol → Handed symbol before after
  live : ∀ symbol node, before.model.graph.nodeOf? symbol = some node →
    after.model.graph.nodeOf? symbol = some node
  added : ∃ nodes : List (Graph.Node κ),
    after.model.graph.nodes = before.model.graph.nodes ++ nodes ∧
      ∀ node ∈ nodes, before.model.graph.Vacant node.symbol ∧
        node.equation.categories = .only .loopInternal ∧ MayDefine before request node.symbol

section

variable {request : Loop.Request κ} {symbols : List Symbol}
  (drives : ∀ symbol ∈ symbols, before.model.Drives request symbol)
  (readies : Readies symbols before middle) (handed : ∀ symbol, Handed symbol before middle)

include drives readies handed

theorem Leaves.of_readies : Leaves request before middle := by
  have claims := readies.claims
  refine ⟨readies.model, claims.lasting,
    fun symbol spared => claims.inputs symbol fun member => spared (drives symbol member),
    fun symbol spared => claims.bindings symbol fun member => spared (drives symbol member),
    fun symbol spared => readies.pending symbol fun member => spared (drives symbol member),
    fun symbol _ => handed symbol, fun symbol node found => ?_, [], ?_, List.forall_mem_nil _⟩
  · rw [claims.rest]
    exact found
  · rw [claims.rest]
    exact (List.append_nil _).symm

theorem Leaves.supplement {allowed : Symbol → Prop} {work : Graph.Session κ}
    (le : before.supply.next ≤ middle.supply.next)
    (may : ∀ symbol, allowed symbol → MayDefine middle request symbol)
    (supplements : Graph.Supplements allowed middle.model.graph work.graph) :
    Leaves request before (middle.withGraph work) := by
  have claims := readies.claims
  have leaves := Leaves.of_readies drives readies handed
  obtain ⟨nodes, same, new, _⟩ := supplements.added
  refine ⟨?_, fun symbol input => ?_, fun symbol spared => ?_, fun symbol spared => ?_,
    leaves.pending, fun symbol _ => ?_,
    fun symbol node found => supplements.kept _ _ (leaves.live symbol node found), nodes, ?_,
    fun node member => ?_⟩
  · change { middle.model with graph := work.graph } = _
    rw [readies.model]
    rfl
  · exact (congrArg (Table.find? · symbol) supplements.inputs).trans (leaves.lasting symbol input)
  · exact (congrArg (Table.find? · symbol) supplements.inputs).trans (leaves.inputs symbol spared)
  · exact (congrArg (Table.find? · symbol) supplements.store.bindings).trans
      (leaves.bindings symbol spared)
  · exact (handed symbol).congr (congrArg (Table.find? · symbol) supplements.inputs)
      (congrArg (Table.find? · symbol) supplements.store.bindings) rfl
  · refine same.trans (congrArg (· ++ nodes) ?_)
    rw [claims.rest]
  · obtain ⟨vacant, among, internal⟩ := new node member
    have undefined := vacant.undefined
    rw [claims.rest] at undefined
    refine ⟨⟨undefined, ?_⟩, internal, ?_⟩
    · rw [← Bool.not_eq_true]
      intro input
      exact absurd (vacant.noInput.symm.trans (claims.isInput input)) (by decide)
    · refine (may _ among).imp ?_ le.trans
      rintro ⟨coordinate, ⟨id, listed, joint, found, moved⟩, own⟩
      rw [readies.parts.chain] at found
      exact ⟨coordinate, ⟨id, listed, joint, found, moved⟩, own⟩

end

/-! ### Requests beside each other -/

section

variable {pre post : Graph.Session κ → Graph.Session κ → Prop}

theorem agrees_getModel {next : Model κ → Action κ α}
    (alike : ∀ one other : Session κ, Beside pre one other → next other.model = next one.model)
    (agrees : ∀ model, Agrees (Beside pre) (Beside post) (next model)) :
    Agrees (Beside pre) (Beside post) (getModel >>= next) := by
  intro one other beside
  rw [Agrees.run_bind, Agrees.run_bind]
  change ((next other.model).run.run other).1 = ((next one.model).run.run one).1 ∧
    Beside post ((next one.model).run.run one).2 ((next other.model).run.run other).2
  rw [alike one other beside]
  exact agrees one.model one other beside

theorem agrees_release (symbol : Symbol) : Agrees (Beside pre) (Beside pre)
    (modifyModel fun model => { model with pending := model.pending.erase symbol } :
      Action κ PUnit) := by
  intro one other beside
  refine ⟨rfl, ?_, beside.graphs⟩
  change { other.model with pending := other.model.pending.erase symbol } = _
  rw [beside.model]
  rfl

theorem agrees_declareRate (symbol : Symbol) (category : Category) :
    Agrees (Beside Graph.Peers) (Beside Graph.Peers) (declareRate symbol category : Action κ Unit) :=
  agrees_getModel (fun _ _ beside => by rw [beside.model]) fun _ =>
    (agrees_release symbol).andThen fun _ => agrees_onGraph (Graph.agrees_declareInput _ _ _)

theorem agrees_declareCoordinate (coordinate : Coordinate) :
    Agrees (Beside Graph.Peers) (Beside Graph.Peers)
      (declareCoordinate coordinate : Action κ Unit) := by
  refine agrees_getModel (fun one other beside => ?_) fun model => ?_
  · have same : other.model.graph.isInput coordinate.position =
        one.model.graph.isInput coordinate.position := beside.graphs.twin.isInput_eq
    rw [same]
  · split
    · exact .pure _
    · exact (agrees_declareRate _ _).andThen fun _ => (agrees_declareRate _ _).andThen fun _ =>
        agrees_declareRate _ _

theorem agrees_declareDriver (coordinate : Coordinate) :
    Agrees (Beside Graph.Peers) (Beside Graph.Peers) (declareDriver coordinate : Action κ Unit) := by
  refine agrees_getModel (fun one other beside => ?_) fun model => ?_
  · rw [isClosed, beside.model, isClosed]
  · split
    · exact agrees_declareCoordinate coordinate
    · exact .pure _

theorem agrees_checkFollower (coordinate : Coordinate) :
    Agrees (Beside Graph.Peers) (Beside Graph.Peers) (checkFollower coordinate : Action κ Unit) := by
  refine agrees_getModel (fun one other beside => ?_) fun model => ?_
  · have same : other.model.graph.isInput coordinate.position =
        one.model.graph.isInput coordinate.position := beside.graphs.twin.isInput_eq
    have conflicts : other.model.conflict? coordinate = one.model.conflict? coordinate := by
      rw [conflict?, same, beside.model, conflict?]
    rw [conflicts]
  · split
    · exact .throw _
    · exact .pure _

theorem agrees_jointCoordinates (ids : List JointId) :
    Agrees (Beside pre) (Beside pre) (jointCoordinates ids : Action κ (List Coordinate)) := by
  refine agrees_getModel (fun one other beside => by rw [beside.model]) fun model => .mapM fun id => ?_
  split
  · exact .pure _
  · exact .throw _

end

variable [ScalarText κ]

theorem agrees_arrangeLoop (request : Loop.Request κ) :
    Agrees (Beside Graph.Peers) (Beside Graph.Peers) (arrangeLoop request) := by
  have make : Agrees (Beside Graph.Peers) (Beside Graph.Peers) (do
      let model ← getModel
      ofLoop (Loop.Descriptor.new request model.chain model.settings.loops) :
        Action κ (Loop.Descriptor κ)) := by
    refine agrees_getModel (fun one other beside => by rw [beside.model]) fun model => ?_
    cases Loop.Descriptor.new request model.chain model.settings.loops with
    | error error => exact .throw _
    | ok descriptor => exact .pure _
  have check (followers : List Coordinate) : Agrees (Beside Graph.Peers) (Beside Graph.Peers)
      (followers.forM checkFollower : Action κ Unit) := .forM agrees_checkFollower
  have declare (drivers : List Coordinate) : Agrees (Beside Graph.Peers) (Beside Graph.Peers)
      (drivers.forM declareDriver : Action κ Unit) := .forM agrees_declareDriver
  have rest := (agrees_jointCoordinates request.independent).andThen fun independent =>
    (agrees_jointCoordinates request.dependent).andThen fun dependent =>
      (check dependent).andThen fun _ => (declare independent).andThen fun _ => make
  refine agrees_getModel (fun one other beside => by rw [beside.model]) fun model => ?_
  simp only
  split
  · exact (Agrees.throw _).andThen fun _ => rest
  · exact rest

theorem registerLoop_alike {one other : Session κ} (request : Loop.Request κ)
    (beside : Beside Graph.Peers one other) (tame : simplifier.Tame) (fit : Fit simplifier one)
    (otherFit : Fit simplifier other) :
    ((registerLoop request).perform other).1 = ((registerLoop request).perform one).1 := by
  obtain ⟨same, later⟩ := agrees_arrangeLoop request one other beside
  have first := ((arrangeLoop_arranges one request).prepares tame fit).fit tame fit
  have second := ((arrangeLoop_arranges other request).prepares tame otherFit).fit tame otherFit
  rw [registerLoop_eq, perform_bind, perform_bind]
  change ((arrangeLoop request).perform other).1 = ((arrangeLoop request).perform one).1 at same
  change Beside _ ((arrangeLoop request).perform one).2 ((arrangeLoop request).perform other).2
    at later
  generalize (arrangeLoop request).perform one = left at same later first
  generalize (arrangeLoop request).perform other = right at same later second
  obtain ⟨result, left⟩ := left
  obtain ⟨otherResult, right⟩ := right
  obtain rfl : result = otherResult := same.symm
  cases result with
  | error error => rfl
  | ok descriptor =>
      have peers : Graph.SanePeers (graphSession left) (graphSession right) :=
        ⟨later.graphs, first.sane tame, second.sane tame⟩
      have closes := (Loop.Descriptor.close_peers peers descriptor).1
      simp only [perform_closeLoop]
      generalize descriptor.close (graphSession left) = attempt at closes
      generalize descriptor.close (graphSession right) = otherAttempt at closes
      rw [closes]
      cases attempt.outcome <;> rfl

/-! ### Refused requests -/

theorem mayDefine_of_solve {request : Loop.Request κ} {descriptor : Loop.Descriptor κ}
    (made : Loop.Descriptor.new request session.model.chain session.model.settings.loops =
      .ok descriptor) (symbol : Symbol)
    (allowed : descriptor.MayDefine (graphSession session) symbol) :
    MayDefine session request symbol := by
  obtain rfl := Loop.Descriptor.eq_of_new made
  refine allowed.imp_left ?_
  rintro ⟨geometry, solved, member⟩
  obtain ⟨coordinate, among, own⟩ := Coordinate.mem_allSymbols.mp member
  obtain ⟨_, listing⟩ := Loop.Problem.reads_solve solved
  exact ⟨coordinate, listing.listed.2 coordinate among, own⟩

theorem Arranges.readies {request : Loop.Request κ}
    {outcome : Except (ModelError κ) (Loop.Descriptor κ) × Session κ}
    (arranges : Arranges session request outcome) (tidy : Tidy session) (tame : simplifier.Tame)
    (fit : Fit simplifier session) : ∃ symbols,
      (∀ symbol ∈ symbols, session.model.Drives request symbol) ∧
        Readies symbols session outcome.2 ∧ ∀ symbol, Handed symbol session outcome.2 := by
  have declared {drivers : List Coordinate} (driving : ∀ coordinate ∈ drivers,
      session.model.MovesOneOf request.independent coordinate) : ∃ symbols,
      (∀ symbol ∈ symbols, session.model.Drives request symbol) ∧
        Readies symbols session ((drivers.forM declareDriver).perform session).2 ∧
          ∀ symbol, Handed symbol session ((drivers.forM declareDriver).perform session).2 := by
    have known (coordinate : Coordinate) (member : coordinate ∈ drivers) :=
      fit.moved (driving coordinate member)
    refine ⟨Coordinate.allSymbols
      (drivers.filter fun coordinate => !session.model.isClosed coordinate), ?_,
      readies_declareDrivers known
        (fun coordinate member free symbol own => Coordinate.mem_allSymbols.mpr
          ⟨coordinate, List.mem_filter.mpr ⟨member, by simp [free]⟩, own⟩) tame fit,
      handed_declareDrivers tidy known tame fit⟩
    intro symbol member
    obtain ⟨coordinate, among, own⟩ := Coordinate.mem_allSymbols.mp member
    obtain ⟨listed, free⟩ := List.mem_filter.mp among
    exact ⟨coordinate, driving coordinate listed, by simpa using free, own⟩
  cases arranges with
  | refused => exact ⟨[], nofun, .refl [] session, fun symbol => .refl symbol session⟩
  | undeclared driving ran | unmade driving ran | made driving _ _ _ ran =>
      have readied := declared driving
      rwa [ran] at readied

theorem welcome_of_readies {request : Loop.Request κ} {descriptor : Loop.Descriptor κ}
    {symbols : List Symbol} (fit : Fit simplifier session)
    (made : Loop.Descriptor.new request session.model.chain session.model.settings.loops =
      .ok descriptor)
    (drives : ∀ symbol ∈ symbols, session.model.Drives request symbol)
    (readies : Readies symbols session middle) (welcome : descriptor.Welcome session.model.graph)
    (apart : ∀ coordinate, session.model.MovesOneOf request.dependent coordinate →
      ¬session.model.MovesOneOf request.independent coordinate) :
    descriptor.Welcome middle.model.graph := by
  obtain rfl := Loop.Descriptor.eq_of_new made
  intro geometry solved
  obtain ⟨distinct, vacant⟩ := welcome geometry solved
  refine ⟨distinct, fun symbol member => ?_⟩
  obtain ⟨undefined, noInput⟩ := vacant symbol member
  refine ⟨(readies.isDefined_eq symbol).trans undefined, ?_⟩
  have spared : symbol ∉ symbols := by
    intro among
    obtain ⟨driver, driving, _, drivers⟩ := drives symbol among
    obtain ⟨follower, follows, own⟩ := Coordinate.mem_allSymbols.mp member
    obtain ⟨_, listing⟩ := Loop.Problem.reads_solve solved
    have following := listing.listed.2 follower follows
    by_cases same : driver.name = follower.name
    · have known := fit.moved driving
      rw [same, fit.moved following, Option.some.injEq] at known
      exact apart follower following (known ▸ driving)
    · exact fit.apart same (fit.moved driving) (fit.moved following) symbol drivers own
  rw [Graph.isInput, Table.contains, readies.claims.inputs symbol spared]
  exact noInput

theorem Arranges.settled {request : Loop.Request κ}
    {outcome : Except (ModelError κ) (Loop.Descriptor κ) × Session κ}
    (arranges : Arranges session request outcome)
    (roles : ∀ coordinate, session.model.MovesOneOf request.independent coordinate →
      session.model.HasRole coordinate) : outcome.2 = session := by
  cases arranges with
  | refused => rfl
  | undeclared driving ran | unmade driving ran | made driving _ _ _ ran =>
      rw [declareDrivers_settled fun coordinate member => roles coordinate (driving coordinate member),
        Prod.mk.injEq] at ran
      exact ran.2.symm

/-- A refused request leaves nothing behind but drivers that are inputs, and internal equations; and
no equations either if the coordinates that it is to determine are new to the graph and drive
nothing. If moreover its drivers have roles already, it leaves everything as it was but cached
values, and every request is answered as before. -/
theorem registerLoop_refused (inverts : Tensor.InvertsUnknowns κ) (tame : simplifier.Tame)
    (reachable : Reachable simplifier session) {request : Loop.Request κ}
    (regular : request.Regular session.supply.next) {error : ModelError κ}
    (failed : (registerLoop request).perform session = (.error error, later)) :
    Leaves request session later ∧
      ((∀ descriptor, Loop.Descriptor.new request session.model.chain
            session.model.settings.loops = .ok descriptor →
          descriptor.Welcome session.model.graph) →
        (∀ coordinate, session.model.MovesOneOf request.dependent coordinate →
          ¬session.model.MovesOneOf request.independent coordinate) →
        later.model.graph = { session.model.graph with
          inputs := later.model.graph.inputs
          store := later.model.graph.store
          built := later.model.graph.built }) ∧
      ((∀ coordinate, session.model.MovesOneOf request.independent coordinate →
          session.model.HasRole coordinate) →
        (∀ descriptor, Loop.Descriptor.new request session.model.chain
            session.model.settings.loops = .ok descriptor →
          descriptor.Welcome session.model.graph) →
        later = session.withGraph (graphSession later) ∧
          Graph.Queried (graphSession session) (graphSession later) ∧
          ∀ other, ((registerLoop other).perform later).1 =
            ((registerLoop other).perform session).1) := by
  have fit := reachable.fit tame
  have laterFit : Fit simplifier later := by
    have fit := (reachable.step (.close request) regular trivial).fit tame
    rwa [Command.apply, Command.action, ignore_later, failed] at fit
  have arranges := arrangeLoop_arranges session request
  rw [registerLoop_eq, perform_bind] at failed
  generalize (arrangeLoop request).perform session = outcome at arranges failed
  have prepares := arranges.prepares tame fit
  have settled := arranges.settled
  obtain ⟨symbols, drives, readies, handed⟩ := arranges.readies (reachable.tidy tame) tame fit
  obtain ⟨reason | descriptor, middle⟩ := outcome
  · cases failed
    refine ⟨.of_readies drives readies handed, fun _ _ => readies.claims.rest, fun roles _ => ?_⟩
    obtain rfl : later = session := settled roles
    exact ⟨rfl, .refl (fit.sane tame).valid.coherent, fun _ => rfl⟩
  · cases arranges with
    | made driving driven new free ran made =>
        have middleFit := prepares.fit tame fit
        have le := (prepares.steps.advances tame fit).supply_le tame fit.graph
        simp only [perform_closeLoop] at failed
        cases outcome : (descriptor.close (graphSession middle)).outcome with
        | ok artifacts =>
            rw [outcome] at failed
            cases failed
        | error reason =>
            rw [outcome] at failed
            cases failed
            have problem := Loop.Descriptor.eq_of_new made
            have reached := Loop.Descriptor.reached_new made
            have supplements := Loop.Descriptor.supplements_close reached.consistent
              (graphSession middle)
            have queried := Loop.Descriptor.queried_close inverts reached
              (middleFit.graph.fit tame).valid (problem ▸ middleFit.chain)
              (problem ▸ regular.mono le) outcome
            refine ⟨.supplement drives readies handed le (mayDefine_of_solve made) supplements,
              fun welcome apart => ?_, fun roles welcome => ?_⟩
            · rw [readies.parts.chain, readies.parts.settings] at made
              have kept := (queried (welcome_of_readies fit made drives readies
                (welcome descriptor made) apart)).graph
              have rest := readies.claims.rest
              generalize (descriptor.close (graphSession middle)).session = work at kept
              change work.graph = { session.model.graph with
                inputs := work.graph.inputs, store := work.graph.store, built := work.graph.built }
              change work.graph = { middle.model.graph with store := work.graph.store } at kept
              rw [kept, rest]
            obtain rfl : middle = session := settled roles
            have queried := queried (welcome descriptor made)
            refine ⟨rfl, queried, fun other => ?_⟩
            have twin : Graph.Twin (graphSession middle).graph _ :=
              ⟨by rw [queried.graph], supplements.store⟩
            exact registerLoop_alike other ⟨rfl, queried.supply, twin⟩ tame fit laterFit

/-! ### A loop with a fixed frame -/

namespace FixedFrame

open Mechanism.Loop.Sample (along regular_along)

def u : Coordinate := (Coordinate.fresh ⟨1⟩ "u").1

def v : Coordinate := (Coordinate.fresh ⟨4⟩ "v").1

noncomputable def crank : Joint RealNumber := ⟨"crank", .revolute .z, u, none, along 0⟩

noncomputable def output : Joint RealNumber := ⟨"output", .revolute .z, v, none, along 1⟩

noncomputable def linkage : Session RealNumber :=
  (Command.joint output).apply ((Command.joint crank).apply ((Command.coordinate "v").apply
    ((Command.coordinate "u").apply ⟨ofSettings .standard Simplifier.keep, ⟨1⟩⟩)))

/-- The output turns with the crank; but one of the frames does not move. -/
noncomputable def fixed : Loop.Request RealNumber :=
  ⟨"equal", .explicitJoint (.atom u.atom), ⟨"a", none, along 0⟩, ⟨"b", some ⟨1⟩, along 0⟩, [⟨0⟩], [⟨1⟩]⟩

noncomputable def swapped : Loop.Request RealNumber :=
  ⟨"equal", .explicitJoint (.atom v.atom), ⟨"a", some ⟨0⟩, along 0⟩, ⟨"b", some ⟨1⟩, along 0⟩, [⟨1⟩],
    [⟨0⟩]⟩

noncomputable def declared : Session RealNumber := (([u].forM declareDriver).perform linkage).2

theorem reachable : Reachable Simplifier.keep linkage :=
  .step _ (.step _ (.step _ (.step _ (.start ⟨1⟩ new_standard) trivial trivial) trivial trivial)
    (regular_along _ _) trivial) (regular_along _ _) trivial

theorem regular : fixed.Regular linkage.supply.next where
  frameA := regular_along _ _
  frameB := regular_along _ _
  expression := by
    rintro _ ⟨⟩ atom occurs
    obtain rfl := List.mem_singleton.mp occurs
    exact ⟨Nat.zero_lt_one, (by decide : 1 < 7)⟩

theorem new_fixed (chain : Chain RealNumber) : Loop.Descriptor.new fixed chain .standard =
    .error (.worldConnection "equal" "a") := by
  rw [Loop.Descriptor.new, standard_regular]
  rfl

theorem arranges {session later : Session RealNumber}
    (new : session.model.loops.contains fixed.name = false)
    (asked : (jointCoordinates fixed.independent).perform session = (.ok [u], session))
    (following : (jointCoordinates fixed.dependent).perform session = (.ok [v], session))
    (free : ([v].forM checkFollower).perform session = (.ok ⟨⟩, session))
    (ran : ([u].forM declareDriver).perform session = (.ok ⟨⟩, later))
    (settings : later.model.settings.loops = .standard) :
    (registerLoop fixed).perform session =
      (.error (.loop (.worldConnection "equal" "a")), later) := by
  rw [registerLoop_eq, perform_bind, perform_arrangeLoop new asked following free ran, settings,
    new_fixed]
  rfl

theorem refuses : (registerLoop fixed).perform linkage =
    (.error (.loop (.worldConnection "equal" "a")), declared) :=
  arranges (by decide) rfl rfl rfl rfl rfl

theorem refuses_again : (registerLoop fixed).perform declared =
    (.error (.loop (.worldConnection "equal" "a")), declared) :=
  arranges (by decide) rfl rfl rfl rfl rfl

theorem apart (coordinate : Coordinate)
    (follows : linkage.model.MovesOneOf fixed.dependent coordinate) :
    ¬linkage.model.MovesOneOf fixed.independent coordinate := by
  obtain ⟨_, member, joint, found, rfl⟩ := follows
  obtain rfl := List.mem_singleton.mp member
  obtain rfl : output = joint := Option.some.inj found
  rintro ⟨_, member, driver, found, same⟩
  obtain rfl := List.mem_singleton.mp member
  obtain rfl : crank = driver := Option.some.inj found
  exact absurd (congrArg Coordinate.name same) (by decide)

theorem reachable_declared : Reachable Simplifier.keep declared := by
  have reachable : Reachable Simplifier.keep ((Command.close fixed).apply linkage) :=
    .step (.close fixed) reachable regular trivial
  rwa [Command.apply, Command.action, ignore_later, refuses] at reachable

end FixedFrame

/-- The first refusal declares the crank at most, and the second one changes nothing. -/
theorem fixedFrame_leaves : Leaves FixedFrame.fixed FixedFrame.linkage FixedFrame.declared ∧
    FixedFrame.declared.model.graph.nodes = FixedFrame.linkage.model.graph.nodes ∧
    (registerLoop FixedFrame.fixed).perform FixedFrame.declared =
      (.error (.loop (.worldConnection "equal" "a")), FixedFrame.declared) ∧
    Graph.Queried (graphSession FixedFrame.declared) (graphSession FixedFrame.declared) := by
  obtain ⟨leaves, rest, _⟩ := registerLoop_refused Tensor.invertsUnknowns Simplifier.keep_tame
    FixedFrame.reachable FixedFrame.regular FixedFrame.refuses
  obtain ⟨_, _, again⟩ := registerLoop_refused Tensor.invertsUnknowns Simplifier.keep_tame
    FixedFrame.reachable_declared FixedFrame.regular FixedFrame.refuses_again
  have kept := rest (fun descriptor made => absurd (made.symm.trans (FixedFrame.new_fixed _)) (by simp))
    FixedFrame.apart
  refine ⟨leaves, (congrArg Graph.nodes kept).trans rfl, FixedFrame.refuses_again, (again ?_ ?_).2.1⟩
  · rintro _ ⟨id, member, joint, found, rfl⟩
    obtain rfl := List.mem_singleton.mp member
    obtain rfl : FixedFrame.crank = joint := Option.some.inj found
    exact .inr (by decide)
  · intro descriptor made
    exact absurd (made.symm.trans (FixedFrame.new_fixed _)) (by simp)

/-- The refused request leaves the crank an input, so that it cannot be determined any more. -/
theorem fixedFrame_declares : Reachable Simplifier.keep FixedFrame.linkage ∧
    (registerLoop FixedFrame.fixed).perform FixedFrame.linkage =
      (.error (.loop (.worldConnection "equal" "a")), FixedFrame.declared) ∧
    FixedFrame.linkage.model.graph.isInput FixedFrame.u.position = false ∧
    FixedFrame.declared.model.graph.isInput FixedFrame.u.position = true ∧
    ((registerLoop FixedFrame.swapped).perform FixedFrame.declared).1 =
      .error (.coordinateConflict "u" .declared) :=
  ⟨FixedFrame.reachable, FixedFrame.refuses, by decide, by decide, rfl⟩

end Model

end Mechanism
