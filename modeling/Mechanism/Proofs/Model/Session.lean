import Mechanism.Model.Dynamics
import Mechanism.Model.Equations
import Mechanism.Proofs.Graph.Survival
import Mechanism.Proofs.Loop.Running

/-!
Runs of a model. Whatever is asked of a model, and whether it succeeds or fails, comes to steps of
a few kinds, each of which gives commands to the graph.
-/

open Relation (ReflTransGen)

namespace Mechanism

def Graph.Command.Plain {κ : Type} [Scalar κ] : Graph.Command κ → Prop
  | .declareInput .. | .build | .reduce _ => False
  | _ => True

theorem Graph.Command.Plain.spares {κ : Type} [Scalar κ] {command : Graph.Command κ}
    (plain : command.Plain) : command.Spares := by
  cases command <;> first | exact plain.elim | trivial

def Graph.Works {κ : Type} [Scalar κ] : Graph.Session κ → Graph.Session κ → Prop :=
  Graph.Leads fun _ command => command.Plain

theorem Graph.Serves.works {κ : Type} [Scalar κ] {first later : Graph.Session κ}
    (serves : Graph.Serves first later) : Graph.Works first later := by
  refine serves.mono fun _ command serves => ?_
  cases command <;> first | exact serves.elim | trivial

theorem Table.mem_insertInto {α β : Type} [DecidableEq α] {key : α} {value : β}
    {entries : List (α × β)} {entry : α × β} (member : entry ∈ insertInto key value entries) :
    entry = (key, value) ∨ entry ∈ entries := by
  induction entries with
  | nil => exact .inl (List.mem_singleton.mp member)
  | cons head tail ih =>
      unfold insertInto at member
      split at member <;> rcases List.mem_cons.mp member with same | rest
      · exact .inl same
      · exact .inr (List.mem_cons_of_mem _ rest)
      · exact .inr (same ▸ List.mem_cons_self)
      · exact (ih rest).imp_right (List.mem_cons_of_mem _)

namespace Model

variable {κ α β : Type} [Scalar κ]

def Session.withGraph (session : Session κ) (work : Graph.Session κ) : Session κ :=
  ⟨{ session.model with graph := work.graph }, work.supply⟩

def Session.give (session : Session κ) (command : Graph.Command κ) : Session κ :=
  session.withGraph (command.apply (Action.graphSession session))

namespace Action

def perform (action : Action κ α) (session : Session κ) :
    Except (ModelError κ) α × Session κ :=
  action.run.run session

variable (session : Session κ)

theorem perform_pure (value : α) : (pure value : Action κ α).perform session = (.ok value, session) :=
  rfl

theorem perform_throw (error : ModelError κ) :
    (throw error : Action κ α).perform session = (.error error, session) := rfl

theorem perform_bind (action : Action κ β) (next : β → Action κ α) :
    (action >>= next).perform session =
      match action.perform session with
      | (.ok value, later) => (next value).perform later
      | (.error error, later) => (.error error, later) := by
  change ((action.run >>= ExceptT.bindCont next).run session) = _
  rw [StateT.run_bind]
  change (match action.run.run session with | (value, later) => _) = _
  unfold perform
  rcases action.run.run session with ⟨_ | _, later⟩ <;> rfl

theorem perform_get : (get : Action κ (Session κ)).perform session = (.ok session, session) := rfl

theorem perform_set (later : Session κ) :
    (set later : Action κ PUnit).perform session = (.ok ⟨⟩, later) := rfl

theorem perform_getModel : getModel.perform session = (.ok session.model, session) := rfl

theorem perform_modifyModel (change : Model κ → Model κ) :
    (modifyModel change).perform session =
      (.ok ⟨⟩, { session with model := change session.model }) := rfl

theorem perform_setGraphSession (work : Graph.Session κ) :
    (setGraphSession work).perform session = (.ok ⟨⟩, session.withGraph work) := rfl

theorem perform_onGraph (action : Graph.Action κ α) :
    (onGraph action).perform session =
      match action.perform (graphSession session) with
      | (.ok value, work) => (.ok value, session.withGraph work)
      | (.error error, work) => (.error (.graph error), session.withGraph work) := by
  rw [onGraph, perform_bind, perform_get]
  unfold Graph.Action.perform
  simp only
  rcases action.run.run (graphSession session) with ⟨_ | _, work⟩ <;>
    simp only [perform_bind, perform_setGraphSession] <;> rfl

theorem perform_onLoop (action : Loop.Action κ α) :
    (onLoop action).perform session =
      match action.perform (graphSession session) with
      | (.ok value, work) => (.ok value, session.withGraph work)
      | (.error error, work) => (.error (.loop error), session.withGraph work) := by
  rw [onLoop, perform_bind, perform_get]
  unfold Loop.Action.perform
  simp only
  rcases action.run.run (graphSession session) with ⟨_ | _, work⟩ <;>
    simp only [perform_bind, perform_setGraphSession] <;> rfl

theorem onGraph_later (action : Graph.Action κ α) :
    ((onGraph action).perform session).2 =
      session.withGraph (action.perform (graphSession session)).2 := by
  rw [perform_onGraph]
  rcases action.perform (graphSession session) with ⟨_ | _, _⟩ <;> rfl

theorem bind_pure_later (action : Action κ β) (result : β → α) :
    ((action >>= fun value => pure (result value)).perform session).2 =
      (action.perform session).2 := by
  rw [perform_bind]
  rcases action.perform session with ⟨_ | _, _⟩ <;> rfl

theorem bind_eq_ok {action : Action κ β} {next : β → Action κ α} {session later : Session κ}
    {value : α} : (action >>= next).perform session = (.ok value, later) ↔
      ∃ first middle, action.perform session = (.ok first, middle) ∧
        (next first).perform middle = (.ok value, later) := by
  rw [perform_bind]
  rcases action.perform session with ⟨_ | _, _⟩ <;> simp

theorem onGraph_eq_ok {action : Graph.Action κ α} {session later : Session κ} {value : α} :
    (onGraph action).perform session = (.ok value, later) ↔
      ∃ work, action.perform (graphSession session) = (.ok value, work) ∧
        later = session.withGraph work := by
  rw [perform_onGraph]
  rcases action.perform (graphSession session) with ⟨_ | _, _⟩ <;> simp [eq_comm]

end Action

open Mechanism.Model.Action

@[simp] theorem graphSession_withGraph (session : Session κ) (work : Graph.Session κ) :
    graphSession (session.withGraph work) = work := rfl

@[simp] theorem withGraph_withGraph (session : Session κ) (work more : Graph.Session κ) :
    (session.withGraph work).withGraph more = session.withGraph more := rfl

/-- The loop has been registered under its name, with issued symbols only. -/
structure Settled (settings : Loop.Settings κ) (limit : Nat) (name : String)
    (descriptor : Loop.Descriptor κ) : Prop where
  name_eq : descriptor.name = name
  settings_eq : descriptor.settings = settings
  registered : ∃ derivation artifacts, descriptor.progress = .registered derivation artifacts ∧
    derivation.Regular limit ∧ artifacts.Issued limit

theorem Settled.mono {settings : Loop.Settings κ} {limit more : Nat} {name : String}
    {descriptor : Loop.Descriptor κ} (settled : Settled settings limit name descriptor)
    (le : limit ≤ more) : Settled settings more name descriptor := by
  obtain ⟨name, same, derivation, artifacts, registered, regular, bvu, bPrime⟩ := settled
  exact ⟨name, same, derivation, artifacts, registered, regular.mono le, bvu.trans_le le,
    bPrime.trans_le le⟩

variable {simplifier : Simplifier κ} {session later before after : Session κ}

/-- The graph has been reached by its commands, the coordinates have symbols of their own that have
been issued one after the other, and the joints are moved by coordinates of the model. -/
structure Fit (simplifier : Simplifier κ) (session : Session κ) : Prop where
  graph : Graph.Reachable simplifier (graphSession session)
  listed : ∀ entry ∈ session.model.coordinates.entries,
    session.model.coordinates.find? entry.1 = some entry.2
  coordinates : ∀ {name : String} {coordinate : Coordinate},
    session.model.coordinates.find? name = some coordinate →
      ∃ number, number + 2 < session.supply.next ∧
        coordinate = (Coordinate.fresh ⟨number⟩ name).1
  apart : ∀ {name other : String} {first second : Coordinate}, name ≠ other →
    session.model.coordinates.find? name = some first →
      session.model.coordinates.find? other = some second →
        ∀ symbol ∈ first.symbols, symbol ∉ second.symbols
  joints : ∀ joint ∈ session.model.chain.joints,
    session.model.coordinates.find? joint.coordinate.name = some joint.coordinate ∧
      joint.anchor.shape = .vector 3 ∧ joint.anchor.Regular session.supply.next
  loops : ∀ {name : String} {descriptor : Loop.Descriptor κ},
    session.model.loops.find? name = some descriptor →
      Settled session.model.settings.loops session.supply.next name descriptor
  entered : ∀ entry ∈ session.model.loops.entries,
    session.model.loops.find? entry.1 = some entry.2

theorem Coordinate.mem_symbols_fresh {supply : SymbolSupply} {name : String} {symbol : Symbol}
    (member : symbol ∈ (Coordinate.fresh supply name).1.symbols) :
    symbol.shape = .scalar ∧ supply.next ≤ symbol.number ∧ symbol.number < supply.next + 3 := by
  simp only [Coordinate.symbols, Coordinate.fresh, SymbolSupply.fresh, List.mem_cons,
    List.not_mem_nil, or_false] at member
  rcases member with rfl | rfl | rfl <;> refine ⟨rfl, ?_, ?_⟩ <;> dsimp only <;> omega

theorem Fit.name_eq (fit : Fit simplifier session) {name : String} {coordinate : Coordinate}
    (known : session.model.coordinates.find? name = some coordinate) : coordinate.name = name := by
  obtain ⟨number, _, rfl⟩ := fit.coordinates known
  rfl

theorem Fit.symbols (fit : Fit simplifier session) {name : String} {coordinate : Coordinate}
    (known : session.model.coordinates.find? name = some coordinate) :
    ∀ symbol ∈ coordinate.symbols,
      symbol.shape = .scalar ∧ symbol.number < session.supply.next := by
  obtain ⟨number, issued, rfl⟩ := fit.coordinates known
  intro symbol member
  obtain ⟨scalar, _, bound⟩ := Coordinate.mem_symbols_fresh member
  exact ⟨scalar, bound.trans_le issued⟩

theorem Fit.chain (fit : Fit simplifier session) :
    session.model.chain.Regular session.supply.next where
  coordinates := fun joint member => fit.symbols (fit.joints joint member).1
  shapes := fun joint member => (fit.joints joint member).2.1
  anchors := fun joint member => (fit.joints joint member).2.2

abbrev Advances (before after : Session κ) : Prop :=
  Graph.Leads (fun _ _ => True) (graphSession before) (graphSession after)

theorem advances_give (session : Session κ) (command : Graph.Command κ)
    (admissible : command.Admissible session.supply) : Advances session (session.give command) :=
  .single command admissible trivial

abbrev Accrues (before after : Session κ) : Prop :=
  Graph.Leads (fun _ command => command.Spares) (graphSession before) (graphSession after)

theorem Accrues.advances (accrues : Accrues before after) : Advances before after :=
  accrues.mono fun _ _ _ => trivial

theorem accrues_of_works
    (works : Graph.Works (graphSession before) (graphSession after)) : Accrues before after :=
  works.mono fun _ _ => Graph.Command.Plain.spares

/-- The models are put together in the same way; only the graph and notes beside it differ. -/
structure SameParts (before after : Model κ) : Prop where
  settings : after.settings = before.settings
  chain : after.chain = before.chain
  coordinates : after.coordinates = before.coordinates
  closedBy : after.closedBy = before.closedBy
  loops : after.loops = before.loops

theorem Fit.advance (fit : Fit simplifier before) (tame : simplifier.Tame)
    (advances : Advances before after) (parts : SameParts before.model after.model) :
    Fit simplifier after := by
  have le : before.supply.next ≤ after.supply.next := advances.supply_le tame fit.graph
  refine ⟨advances.reachable fit.graph, ?_, fun known => ?_, ?_, fun joint member => ?_,
    fun found => ?_, parts.loops ▸ fit.entered⟩
  · rw [parts.coordinates]
    exact fit.listed
  · obtain ⟨number, issued, same⟩ := fit.coordinates (parts.coordinates ▸ known)
    exact ⟨number, issued.trans_le le, same⟩
  · rw [parts.coordinates]
    exact fit.apart
  · obtain ⟨known, shape, regular⟩ := fit.joints joint (parts.chain ▸ member)
    exact ⟨parts.coordinates ▸ known, shape, regular.mono le⟩
  · rw [parts.settings]
    exact (fit.loops (parts.loops ▸ found)).mono le

/-- Some of the symbols become inputs, with values held back for them; nothing else happens. -/
structure Declares (symbols : List Symbol) (before after : Session κ) : Prop where
  model : after.model =
    { before.model with graph := after.model.graph, pending := after.model.pending }
  leads : Graph.Leads (fun _ command => ∃ symbol ∈ symbols, ∃ categories initial,
    command = .declareInput symbol categories initial) (graphSession before) (graphSession after)

namespace Declares

variable {symbols more : List Symbol} {first second third : Session κ}

theorem refl (symbols : List Symbol) (session : Session κ) : Declares symbols session session :=
  ⟨rfl, .start⟩

theorem trans (left : Declares symbols first second) (right : Declares symbols second third) :
    Declares symbols first third :=
  ⟨by rw [right.model, left.model], left.leads.trans right.leads⟩

theorem mono (declares : Declares symbols first second)
    (le : ∀ symbol ∈ symbols, symbol ∈ more) : Declares more first second :=
  ⟨declares.model, declares.leads.mono fun _ _ ⟨symbol, member, rest⟩ => ⟨symbol, le _ member, rest⟩⟩

theorem accrues (declares : Declares symbols first second) : Accrues first second :=
  declares.leads.mono fun _ _ ⟨_, _, _, _, same⟩ => same ▸ trivial

theorem advances (declares : Declares symbols first second) : Advances first second :=
  declares.accrues.advances

theorem parts (declares : Declares symbols first second) : SameParts first.model second.model := by
  rw [declares.model]
  exact ⟨rfl, rfl, rfl, rfl, rfl⟩

theorem fit (declares : Declares symbols first second) (tame : simplifier.Tame)
    (fit : Fit simplifier first) : Fit simplifier second :=
  fit.advance tame declares.advances declares.parts

end Declares

theorem declareRate_declares {symbol : Symbol} (issued : symbol.number < session.supply.next)
    (category : Category) :
    Declares [symbol] session ((declareRate symbol category).perform session).2 := by
  unfold declareRate
  rw [perform_bind, perform_getModel]
  simp only
  rw [perform_bind, perform_modifyModel]
  simp only
  rw [onGraph_later]
  exact ⟨rfl, .single (.declareInput symbol (.only category) (session.model.pending.find? symbol))
    issued ⟨symbol, List.mem_singleton_self _, _, _, rfl⟩⟩

/-- What holds at first and is kept when a symbol of the coordinate is declared holds after the
declaration of the coordinate, whether it succeeds or fails. -/
theorem declareCoordinate_induction {coordinate : Coordinate} {motive : Session κ → Prop}
    (start : motive session)
    (rate : ∀ symbol ∈ coordinate.symbols, ∀ category middle, motive middle →
      motive ((declareRate symbol category).perform middle).2) :
    motive ((declareCoordinate coordinate).perform session).2 := by
  have position := rate coordinate.position (by simp [Coordinate.symbols]) .state session start
  unfold declareCoordinate
  rw [perform_bind, perform_getModel]
  simp only
  split
  · exact start
  rw [perform_bind]
  split <;> rename_i ran <;> rw [ran] at position
  · have velocity := rate coordinate.velocity (by simp [Coordinate.symbols]) .state _ position
    rw [perform_bind]
    split <;> rename_i ran <;> rw [ran] at velocity
    · exact rate coordinate.acceleration (by simp [Coordinate.symbols]) .derivativeOfState _ velocity
    · exact velocity
  · exact position

theorem declareCoordinate_declares {coordinate : Coordinate}
    (issued : ∀ symbol ∈ coordinate.symbols, symbol.number < session.supply.next)
    (tame : simplifier.Tame) (fit : Fit simplifier session) :
    Declares coordinate.symbols session ((declareCoordinate coordinate).perform session).2 := by
  refine declareCoordinate_induction (.refl _ session) fun symbol member category middle declared => ?_
  have le : session.supply.next ≤ middle.supply.next := declared.leads.supply_le tame fit.graph
  exact declared.trans ((declareRate_declares ((issued symbol member).trans_le le) category).mono
    fun other same => List.mem_singleton.mp same ▸ member)

/-- The coordinate has a role: a loop determines it, or it is an input. -/
def HasRole (model : Model κ) (coordinate : Coordinate) : Prop :=
  model.isClosed coordinate = true ∨ model.graph.isInput coordinate.position = true

inductive Step : Session κ → Session κ → Prop where
  | work {session : Session κ} {work : Graph.Session κ}
      (works : Graph.Works (graphSession session) work) : Step session (session.withGraph work)
  | input {session : Session κ} (name : String) (shape : Shape) (categories : CategorySet)
      (initial : Option (Tensor κ)) :
      Step session ((session.give (.issue name shape .real)).give
        (.declareInput (session.supply.fresh name shape).1 categories initial))
  | declare {session : Session κ} {coordinate : Coordinate}
      (known : session.model.coordinates.find? coordinate.name = some coordinate)
      (free : session.model.isClosed coordinate = false)
      (new : session.model.graph.isInput coordinate.position = false) :
      Step session ((declareCoordinate coordinate).perform session).2
  | coordinate {session : Session κ} {name : String}
      (new : session.model.coordinates.contains name = false) :
      Step session ⟨{ session.model with
        coordinates := session.model.coordinates.insert name
          (Coordinate.fresh session.supply name).1 }, (Coordinate.fresh session.supply name).2⟩
  | joint {session : Session κ} {joint : Joint κ} {id : JointId} {chain : Chain κ}
      (known : session.model.coordinates.find? joint.coordinate.name = some joint.coordinate)
      (regular : joint.anchor.Regular session.supply.next)
      (added : session.model.chain.add joint = .ok (id, chain)) :
      Step session { session with model := { session.model with chain := chain } }
  | hold {session : Session κ} (symbol : Symbol) {value : Tensor κ}
      (scalar : value.shape = .scalar) :
      Step session { session with
        model := { session.model with pending := session.model.pending.insert symbol value } }
  | build {session : Session κ}
      (ready : ∀ coordinate ∈ session.model.allCoordinates, session.model.HasRole coordinate) :
      Step session (session.give .build)
  | project {session : Session κ} (dynamics : Dynamics) :
      Step session { session with model := { session.model with dynamics := some dynamics } }

def Steps : Session κ → Session κ → Prop := ReflTransGen Step

theorem Step.accrues (step : Step before after) (tame : simplifier.Tame)
    (fit : Fit simplifier before) : Accrues before after := by
  cases step with
  | work works => exact accrues_of_works works
  | input name shape categories initial =>
      have issued : Accrues before (before.give (.issue name shape .real)) :=
        .single (.issue name shape .real) trivial trivial
      exact Graph.Leads.step (.declareInput _ categories initial) issued (Nat.lt_succ_self _) trivial
  | declare known =>
      exact (declareCoordinate_declares (fun symbol member => (fit.symbols known symbol member).2)
        tame fit).accrues
  | @coordinate name =>
      have issue (supply : SymbolSupply) (name : String) :
          Graph.Leads (fun _ command => command.Spares)
            (⟨before.model.graph, supply⟩ : Graph.Session κ)
            ⟨before.model.graph, (supply.fresh name .scalar).2⟩ :=
        .single (.issue name .scalar .real) trivial trivial
      exact ((issue _ name).trans (issue _ (name ++ "_d"))).trans (issue _ (name ++ "_dd"))
  | joint | hold | project => exact .start
  | build => exact .single .build trivial trivial

theorem Step.advances (step : Step before after) (tame : simplifier.Tame)
    (fit : Fit simplifier before) : Advances before after :=
  (step.accrues tame fit).advances

theorem Step.supply_le (step : Step before after) (tame : simplifier.Tame)
    (fit : Fit simplifier before) : before.supply.next ≤ after.supply.next :=
  (step.advances tame fit).supply_le tame fit.graph

theorem Step.fit (step : Step before after) (tame : simplifier.Tame)
    (fit : Fit simplifier before) : Fit simplifier after := by
  have advances := step.advances tame fit
  have le := step.supply_le tame fit
  cases step with
  | work | input | hold | build | project => exact fit.advance tame advances ⟨rfl, rfl, rfl, rfl, rfl⟩
  | declare known =>
      exact (declareCoordinate_declares (fun symbol member => (fit.symbols known symbol member).2)
        tame fit).fit tame fit
  | @coordinate name new =>
      have fresh : before.model.coordinates.find? name = none := by simpa [Table.contains] using new
      refine ⟨advances.reachable fit.graph, ?_, ?_, ?_, fun joint member => ?_,
        fun found => (fit.loops found).mono le, fit.entered⟩
      · intro entry member
        rw [Table.find?_insert]
        rcases Table.mem_insertInto member with rfl | old
        · exact if_pos rfl
        · have known := fit.listed entry old
          rw [if_neg, known]
          rintro rfl
          exact Option.some_ne_none _ (known.symm.trans fresh)
      · intro other coordinate known
        rw [Table.find?_insert] at known
        split at known
        · rename_i same
          cases known
          exact ⟨before.supply.next, Nat.lt_succ_self _, by rw [← same]⟩
        · obtain ⟨number, issued, same⟩ := fit.coordinates known
          exact ⟨number, issued.trans_le le, same⟩
      · intro one other first second differs known found symbol member among
        rw [Table.find?_insert] at known found
        split at known <;> split at found
        · rename_i here there
          exact differs (here.symm.trans there)
        · cases known
          exact absurd (fit.symbols found symbol among).2
            (not_lt.mpr (Coordinate.mem_symbols_fresh member).2.1)
        · cases found
          exact absurd (fit.symbols known symbol member).2
            (not_lt.mpr (Coordinate.mem_symbols_fresh among).2.1)
        · exact fit.apart differs known found symbol member among
      · obtain ⟨known, shape, regular⟩ := fit.joints joint member
        refine ⟨?_, shape, regular.mono le⟩
        change (before.model.coordinates.insert _ _).find? _ = _
        rw [Table.find?_insert, if_neg, known]
        intro same
        exact Option.some_ne_none _ (known.symm.trans (same ▸ fresh))
  | joint known regular added =>
      refine ⟨advances.reachable fit.graph, fit.listed, fit.coordinates, fit.apart,
        fun other member => ?_, fit.loops, fit.entered⟩
      obtain ⟨shape, motion, _, joints⟩ := Chain.add_eq_ok added
      rcases List.mem_append.mp (joints ▸ member) with old | new
      · exact fit.joints other old
      · rw [List.mem_singleton.mp new]
        exact ⟨known, shape, regular⟩

theorem Steps.fit (steps : Steps before after) (tame : simplifier.Tame)
    (fit : Fit simplifier before) : Fit simplifier after := by
  induction steps with
  | refl => exact fit
  | tail _ last ih => exact last.fit tame ih

theorem Steps.advances (steps : Steps before after) (tame : simplifier.Tame)
    (fit : Fit simplifier before) : Advances before after := by
  induction steps with
  | refl => exact .start
  | tail earlier last ih => exact ih.trans (last.advances tame (Steps.fit earlier tame fit))

theorem steps_bind {action : Action κ β} {next : β → Action κ α}
    (first : Steps session (action.perform session).2)
    (rest : ∀ value later, action.perform session = (.ok value, later) →
      Steps later ((next value).perform later).2) :
    Steps session ((action >>= next).perform session).2 := by
  rw [perform_bind]
  split <;> rename_i ran <;> rw [ran] at first
  · exact first.trans (rest _ _ ran)
  · exact first

theorem steps_work {work : Graph.Session κ} (works : Graph.Works (graphSession session) work) :
    Steps session (session.withGraph work) := .single (.work works)

theorem steps_give (session : Session κ) (command : Graph.Command κ) (plain : command.Plain)
    (admissible : command.Admissible session.supply) : Steps session (session.give command) :=
  steps_work (.single command admissible plain)

theorem serves_forM_verify (entries : List (String × Loop.Descriptor κ)) (work : Graph.Session κ) :
    Graph.Serves work ((entries.forM fun entry => entry.2.verify).perform work).2 :=
  Loop.Action.forM_related (fun _ => .start) Graph.Leads.trans
    (fun entry => Loop.serves_verify entry.2) entries work

structure Checks (session : Session κ) (work : Graph.Session κ) : Prop where
  due : session.model.checkedRevision ≠ some session.model.graph.store.revision
  verified : (session.model.loops.entries.forM fun entry => entry.2.verify).perform
    (graphSession session) = (.ok ⟨⟩, work)

def Session.markChecked (session : Session κ) (work : Graph.Session κ) : Session κ :=
  { session.withGraph work with
    model := { (session.withGraph work).model with
      checkedRevision := some session.model.graph.store.revision } }

theorem loops_markChecked (work : Graph.Session κ) :
    (session.markChecked work).model.loops = session.model.loops := rfl

theorem graphSession_markChecked (work : Graph.Session κ) :
    graphSession (session.markChecked work) = work := rfl

theorem checkedRevision_markChecked :
    (session.markChecked (graphSession session)).model.checkedRevision =
      some (session.markChecked (graphSession session)).model.graph.store.revision := rfl

theorem Checks.serves {work : Graph.Session κ} (checks : Checks session work) :
    Graph.Serves (graphSession session) work := by
  have serves := serves_forM_verify session.model.loops.entries (graphSession session)
  rwa [checks.verified] at serves

variable [ScalarText κ]

def Session.enclose (session : Session κ) (attempt : Loop.Descriptor.Attempt κ)
    (artifacts : Loop.Artifacts κ) : Session κ :=
  { session.withGraph attempt.session with
    model := (session.withGraph attempt.session).model.addLoop attempt.descriptor artifacts }

/-- A new loop determines coordinates that none has determined, by such as have a role. -/
structure Closes (session : Session κ) (request : Loop.Request κ) (descriptor : Loop.Descriptor κ)
    (artifacts : Loop.Artifacts κ) : Prop where
  regular : request.Regular session.supply.next
  new : session.model.loops.contains request.name = false
  drivers : ∀ id ∈ request.independent, ∀ joint, session.model.chain.joint? id = some joint →
    session.model.HasRole joint.coordinate
  followers : ∀ id ∈ request.dependent, ∀ joint, session.model.chain.joint? id = some joint →
    session.model.isClosed joint.coordinate = false
  made : Loop.Descriptor.new request session.model.chain session.model.settings.loops =
    .ok descriptor
  closed : (descriptor.close (graphSession session)).outcome = .ok artifacts

/-- A step, or a loop that is closed, or a check of all loops. -/
inductive Move : Session κ → Session κ → Prop where
  | step {before after : Session κ} (step : Step before after) : Move before after
  | close {session : Session κ} {request : Loop.Request κ} {descriptor : Loop.Descriptor κ}
      {artifacts : Loop.Artifacts κ} (closes : Closes session request descriptor artifacts) :
      Move session (session.enclose (descriptor.close (graphSession session)) artifacts)
  | check {session : Session κ} {work : Graph.Session κ} (checks : Checks session work) :
      Move session (session.markChecked work)

section

variable {request : Loop.Request κ} {descriptor : Loop.Descriptor κ} {artifacts : Loop.Artifacts κ}
  (closes : Closes session request descriptor artifacts)

include closes

theorem Closes.enters : ∃ derivation, descriptor.Enters (graphSession session) derivation artifacts :=
  Loop.enters_of_close (Loop.Descriptor.reached_new closes.made).consistent
    (by rw [Loop.Descriptor.eq_of_new closes.made]; rfl) closes.closed

theorem Closes.regular_derive (fit : Fit simplifier session) {derivation : Loop.Derivation κ}
    (derived : descriptor.derive.1 = .ok derivation) : derivation.Regular session.supply.next :=
  Loop.Descriptor.regular_derive fit.chain closes.regular closes.made derived

theorem Closes.settled (fit : Fit simplifier session) :
    Settled session.model.settings.loops
      (descriptor.close (graphSession session)).session.supply.next request.name
      (descriptor.close (graphSession session)).descriptor := by
  obtain ⟨derivation, enters⟩ := closes.enters
  have same := Loop.Descriptor.eq_of_new closes.made
  have regular := closes.regular_derive fit enters.derived
  have runs : Loop.Runs (graphSession session) _ _ := Loop.runs_insert descriptor.derive.2 regular
  have le := runs.serves.supply_le
  rw [enters.inserted] at le
  refine ⟨enters.name.trans (by rw [same]; rfl), enters.settings.trans (by rw [same]),
    derivation, artifacts, enters.registered, regular.mono le,
    runs.holds _ _ enters.inserted⟩

theorem Closes.serves (fit : Fit simplifier session) :
    Graph.Serves (graphSession session) (descriptor.close (graphSession session)).session :=
  Loop.serves_close fun _ derived => closes.regular_derive fit derived

end

theorem Move.accrues (move : Move before after) (tame : simplifier.Tame)
    (fit : Fit simplifier before) : Accrues before after := by
  cases move with
  | step step => exact step.accrues tame fit
  | close closes => exact accrues_of_works (closes.serves fit).works
  | check checks => exact accrues_of_works checks.serves.works

theorem Move.advances (move : Move before after) (tame : simplifier.Tame)
    (fit : Fit simplifier before) : Advances before after :=
  (move.accrues tame fit).advances

theorem Move.fit (move : Move before after) (tame : simplifier.Tame)
    (fit : Fit simplifier before) : Fit simplifier after := by
  have advances := move.advances tame fit
  cases move with
  | step step => exact step.fit tame fit
  | check => exact fit.advance tame advances ⟨rfl, rfl, rfl, rfl, rfl⟩
  | @close request descriptor artifacts closes =>
      have le := advances.supply_le tame fit.graph
      refine ⟨advances.reachable fit.graph, fit.listed, fun known => ?_, fit.apart,
        fun joint member => ?_, fun {name found} known => ?_, fun entry member => ?_⟩
      · obtain ⟨number, issued, same⟩ := fit.coordinates known
        exact ⟨number, issued.trans_le le, same⟩
      · obtain ⟨known, shape, regular⟩ := fit.joints joint member
        exact ⟨known, shape, regular.mono le⟩
      · have settled := closes.settled fit
        change (before.model.loops.insert _ _).find? name = some found at known
        rw [Table.find?_insert, settled.name_eq] at known
        split at known
        · rename_i same
          cases known
          exact same ▸ settled
        · exact (fit.loops known).mono le
      · change (before.model.loops.insert _ _).find? entry.1 = _
        rw [Table.find?_insert]
        rcases Table.mem_insertInto member with rfl | old
        · exact if_pos rfl
        · have known := fit.entered entry old
          rw [if_neg, known]
          rintro same
          have fresh := closes.new
          rw [(closes.settled fit).name_eq] at same
          rw [same, Table.contains, known] at fresh
          cases fresh

end Model

end Mechanism
