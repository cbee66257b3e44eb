import Mechanism.Proofs.Model.Dynamics
import Mechanism.Proofs.Model.Runs

/-!
The sessions of models that can be reached. Every command comes to a chain of moves, and a reduction
to one more command to the graph.
-/

open Relation (ReflTransGen)

namespace Mechanism.Model

open Mechanism.Model.Action

variable {κ α : Type} [Scalar κ]

/-- What can be asked of a model. -/
inductive Command (κ : Type) [Scalar κ] where
  | issue (name : String) (shape : Shape) (domain : Domain)
  | parameter (name : String) (value : Tensor κ)
  | input (name : String) (shape : Shape) (categories : CategorySet)
  | coordinate (name : String)
  | joint (joint : Joint κ)
  | register (name : String) (symbol : Symbol) (value : Tensor κ) (categories : CategorySet)
  | define (name : String) (value : Tensor κ) (categories : CategorySet)
  | close (request : Loop.Request κ)
  | project (coordinates : List Coordinate) (motion : Motion κ)
  | change (symbol : Symbol) (value : Tensor κ)
  | query (symbol : Symbol)
  | queryNumbers (symbol : Symbol)
  | build
  | generate (output : CategorySet)
  | reduce (kept : CategorySet)

namespace Command

def action [ScalarText κ] : Command κ → Action κ Unit
  | issue name shape domain =>
    modify fun session => { session with supply := (session.supply.fresh name shape domain).2 }
  | parameter name value => do
    let _ ← Model.parameter name value
  | input name shape categories => do
    let _ ← Model.input name shape categories
  | coordinate name => do
    let _ ← addCoordinate name
  | joint new => do
    let _ ← addJoint new
  | register name symbol value categories => do
    let _ ← registerExpression name symbol value categories
  | define name value categories => do
    let _ ← Model.define name value categories
  | close request => do
    let _ ← registerLoop request
  | project coordinates motion => do
    let _ ← reduceDynamics coordinates motion
  | change symbol value => changeValue symbol value
  | query symbol => do
    let _ ← valueOf symbol
  | queryNumbers symbol => do
    let _ ← numbersOf symbol
  | build => do
    let _ ← Model.build
  | generate output => do
    let _ ← Model.generate output
  | reduce kept => do
    let _ ← Model.reduce kept

/-- The arguments exist: their symbols have been issued, and they read issued symbols at places of
theirs. -/
def Admissible (supply : SymbolSupply) : Command κ → Prop
  | joint new => new.anchor.Regular supply.next
  | register _ symbol value _ => symbol.number < supply.next ∧ value.Regular supply.next
  | define _ value _ => value.Regular supply.next
  | close request => request.Regular supply.next
  | project _ motion => motion.Regular supply.next
  | _ => True

/-- The session after a command, which may have failed. -/
def apply [ScalarText κ] (command : Command κ) (session : Session κ) : Session κ :=
  (command.action.perform session).2

end Command

variable {simplifier : Simplifier κ} {session before after : Session κ}

theorem ignore_later {action : Action κ α} :
    ((do let _ ← action : Action κ Unit).perform session).2 = (action.perform session).2 := by
  rw [perform_bind]
  rcases action.perform session with ⟨_ | _, _⟩ <;> rfl

theorem steps_ignore {action : Action κ α} (steps : Steps session (action.perform session).2) :
    Steps session ((do let _ ← action : Action κ Unit).perform session).2 := by
  rwa [ignore_later]

theorem works_valueOf (symbol : Symbol) (work : Graph.Session κ) :
    Graph.Works work ((Graph.valueOf symbol).perform work).2 := by
  have asked : Graph.Works work ((Graph.Command.query symbol).apply work) :=
    .single _ trivial trivial
  rwa [Graph.Command.apply, Graph.Command.action, Graph.perform_ignore] at asked

theorem works_numbersOf (symbol : Symbol) (work : Graph.Session κ) :
    Graph.Works work ((Graph.numbersOf symbol).perform work).2 := by
  have asked : Graph.Works work ((Graph.Command.queryNumbers symbol).apply work) :=
    .single _ trivial trivial
  rwa [Graph.Command.apply, Graph.Command.action, Graph.perform_ignore] at asked

theorem steps_reduceDynamics {coordinates : List Coordinate} {motion : Motion κ}
    (regular : motion.Regular session.supply.next) (tame : simplifier.Tame)
    (fit : Fit simplifier session) :
    Steps session ((reduceDynamics coordinates motion).perform session).2 := by
  unfold reduceDynamics
  rw [perform_bind, perform_getModel]
  simp only
  split
  · exact .refl
  · rename_i made
    have reduced := fit.reducedMotion regular made
    have issued {middle : Session κ} {value : Tensor κ} (steps : Steps session middle)
        (regular : value.Regular session.supply.next) : value.Regular middle.supply.next :=
      regular.mono ((steps.advances tame fit).supply_le tame fit.graph)
    have mass := steps_define "M_star" (.only .variable) reduced.mass
    refine steps_bind mass fun _ first ran => ?_
    rw [ran] at mass
    have bias := steps_define "h_star" (.only .variable) (issued mass reduced.bias)
    refine steps_bind bias fun _ second ran => ?_
    rw [ran] at bias
    have forces := steps_define "f_star" (.only .variable) (issued (mass.trans bias) reduced.forces)
    exact steps_bind forces fun _ third _ => .single (.project _)

theorem steps_build (tame : simplifier.Tame) (fit : Fit simplifier session) :
    Steps session (build.perform session).2 := by
  obtain ⟨prepares, roles⟩ := prepares_declareCoordinates tame fit
  unfold build
  refine steps_bind prepares.steps fun _ middle ran => ?_
  rw [perform_bind, perform_getModel]
  simp only
  split
  · exact .refl
  · rw [bind_pure_later, onGraph_later]
    have step : Step middle (middle.give .build) := .build (roles middle ran)
    rw [Session.give, Graph.Command.apply, Graph.Command.action, Graph.perform_ignore] at step
    exact .single step

theorem perform_generate (output : CategorySet) :
    ((generate output).perform session).2 = (build.perform session).2 := by
  unfold generate
  rw [perform_bind]
  rcases build.perform session with ⟨_ | _, middle⟩
  · rfl
  · simp only
    rw [perform_bind, perform_getModel]
    simp only
    split <;> rfl

theorem fit_give_reduce (fit : Fit simplifier session) (tame : simplifier.Tame)
    (kept : CategorySet) : Fit simplifier (session.give (.reduce kept)) :=
  fit.advance tame (advances_give session (.reduce kept) trivial) ⟨rfl, rfl, rfl, rfl, rfl⟩

variable [ScalarText κ]

/-- The sessions that come from new models by commands of the allowed ones, whether they succeed or
fail. -/
inductive ReachableBy (allowed : Command κ → Prop) (simplifier : Simplifier κ) :
    Session κ → Prop where
  | start {settings : Settings κ} {model : Model κ} (supply : SymbolSupply)
      (made : new settings simplifier = .ok model) : ReachableBy allowed simplifier ⟨model, supply⟩
  | step {session : Session κ} (command : Command κ)
      (before : ReachableBy allowed simplifier session)
      (admissible : command.Admissible session.supply) (isAllowed : allowed command) :
      ReachableBy allowed simplifier (command.apply session)

/-- The sessions that come from new models by commands in any order. -/
abbrev Reachable (simplifier : Simplifier κ) : Session κ → Prop :=
  ReachableBy (fun _ => True) simplifier

theorem ReachableBy.mono {allowed more : Command κ → Prop}
    (reachable : ReachableBy allowed simplifier session)
    (le : ∀ command, allowed command → more command) : ReachableBy more simplifier session := by
  induction reachable with
  | start supply made => exact .start supply made
  | step command _ admissible isAllowed ih => exact ih.step command admissible (le _ isAllowed)

def Moves : Session κ → Session κ → Prop := ReflTransGen Move

theorem Steps.moves (steps : Steps before after) : Moves before after :=
  ReflTransGen.mono (fun _ _ => .step) _ _ steps

theorem Moves.fit (moves : Moves before after) (tame : simplifier.Tame)
    (fit : Fit simplifier before) : Fit simplifier after := by
  induction moves with
  | refl => exact fit
  | tail _ last ih => exact last.fit tame ih

theorem Moves.accrues (moves : Moves before after) (tame : simplifier.Tame)
    (fit : Fit simplifier before) : Accrues before after := by
  induction moves with
  | refl => exact .start
  | tail earlier last ih => exact ih.trans (last.accrues tame (Moves.fit earlier tame fit))

theorem Verified.moves (verified : Verified before after) : Moves before after := by
  cases verified with
  | known => exact .refl
  | found checks => exact .single (.check checks)

def Command.Quiet : Command κ → Prop
  | .register .. | .define .. | .close _ | .project .. | .build | .generate _ | .reduce _ => False
  | _ => True

/-- The session in which a command begins: a loop is closed when its drivers have become inputs. -/
def Command.eve (session : Session κ) : Command κ → Session κ
  | .close request => ((arrangeLoop request).perform session).2
  | _ => session

inductive Goes (session : Session κ) : Command κ → Session κ → Prop where
  | steps {command : Command κ} {later : Session κ} (steps : Steps (command.eve session) later) :
      Goes session command later
  | close {request : Loop.Request κ} {middle : Session κ} {descriptor : Loop.Descriptor κ}
      {artifacts : Loop.Artifacts κ} (eve : ((arrangeLoop request).perform session).2 = middle)
      (closes : Closes middle request descriptor artifacts) :
      Goes session (.close request)
        (middle.enclose (descriptor.close (graphSession middle)) artifacts)
  | query {command : Command κ} {later : Session κ} (quiet : command.Quiet)
      (queries : Queries session later) : Goes session command later
  | reduce {kept : CategorySet} {middle : Session κ} (steps : Steps session middle) :
      Goes session (.reduce kept) (middle.give (.reduce kept))

theorem goes_query {command : Command κ} {query : Graph.Action κ α} (quiet : command.Quiet)
    (works : ∀ work, Graph.Works work (query.perform work).2) (tame : simplifier.Tame)
    (fit : Fit simplifier session) :
    Goes session command ((do
      let _ ← (do declareCoordinates; verifyLoops; onGraph query : Action κ α)
      : Action κ Unit).perform session).2 := by
  rw [ignore_later]
  have same : command.eve session = session := by cases command <;> first | rfl | exact quiet.elim
  rcases query_cases works tame fit with ⟨steps, _⟩ | queries
  · exact .steps (same.symm ▸ steps)
  · exact .query quiet queries

theorem Command.prepares (command : Command κ) (tame : simplifier.Tame)
    (fit : Fit simplifier session) : Prepares session (command.eve session) := by
  cases command with
  | close request => exact (arrangeLoop_arranges session request).prepares tame fit
  | _ => exact .refl session

theorem Command.goes (command : Command κ) (tame : simplifier.Tame) (fit : Fit simplifier session)
    (admissible : command.Admissible session.supply) :
    Goes session command (command.apply session) := by
  rw [Command.apply]
  cases command with
  | issue name shape domain =>
      exact .steps (steps_give session (.issue name shape domain) trivial trivial)
  | parameter name value =>
      exact .steps (steps_ignore (steps_input session name value.shape (.only .parameter) value))
  | input name shape categories =>
      exact .steps (steps_ignore (steps_input session name shape categories none))
  | coordinate name => exact .steps (steps_ignore (steps_addCoordinate session name))
  | joint joint => exact .steps (steps_ignore (steps_addJoint admissible))
  | register name symbol value categories =>
      exact .steps (steps_ignore
        (steps_registerExpression name categories admissible.1 admissible.2))
  | define name value categories =>
      exact .steps (steps_ignore (steps_define name categories admissible))
  | close request =>
      rw [Command.action, ignore_later]
      rcases (registerLoop_cases admissible tame fit).2 with
        steps | ⟨descriptor, artifacts, closes, same⟩
      · exact .steps steps
      · rw [same]
        exact .close rfl closes
  | project coordinates motion =>
      exact .steps (steps_ignore (steps_reduceDynamics admissible tame fit))
  | change symbol value => exact .steps (steps_changeValue session symbol value)
  | query symbol => exact goes_query trivial (works_valueOf symbol) tame fit
  | queryNumbers symbol => exact goes_query trivial (works_numbersOf symbol) tame fit
  | build => exact .steps (steps_ignore (steps_build tame fit))
  | generate output =>
      refine .steps ?_
      rw [Command.action, ignore_later, perform_generate]
      exact steps_build tame fit
  | reduce kept =>
      have built := steps_build tame fit
      rw [Command.action, perform_bind, Model.reduce, perform_bind]
      rcases ran : Model.build.perform session with ⟨error | report, middle⟩ <;> rw [ran] at built
      · exact .steps built
      · have same := onGraph_later middle (Graph.keepOnly kept)
        have reduced : Goes session (.reduce kept) (middle.give (.reduce kept)) := .reduce built
        rw [Session.give, Graph.Command.apply, Graph.Command.action, Graph.perform_ignore, ← same]
          at reduced
        simp only
        generalize (onGraph (Graph.keepOnly kept)).perform middle = outcome at reduced ⊢
        obtain ⟨_ | _, _⟩ := outcome <;> exact reduced

/-- A command comes to a chain of moves, which a reduction ends with a command to the graph. -/
theorem Command.moves (command : Command κ) (tame : simplifier.Tame) (fit : Fit simplifier session)
    (admissible : command.Admissible session.supply) :
    Moves session (command.apply session) ∨
      ∃ kept middle, command = .reduce kept ∧ Moves session middle ∧
        command.apply session = middle.give (.reduce kept) := by
  have prepares := command.prepares tame fit
  have goes := command.goes tame fit admissible
  generalize command.apply session = later at goes
  cases goes with
  | steps steps => exact .inl (Steps.moves (prepares.steps.trans steps))
  | close eve closes =>
      subst eve
      exact .inl (prepares.steps.moves.tail (.close closes))
  | query quiet queries =>
      cases queries with
      | mk prepares verified works =>
          exact .inl ((prepares.steps.moves.trans verified.moves).trans (steps_work works).moves)
  | reduce steps => exact .inr ⟨_, _, rfl, steps.moves, rfl⟩

theorem Command.fit (command : Command κ) (tame : simplifier.Tame) (fit : Fit simplifier session)
    (admissible : command.Admissible session.supply) : Fit simplifier (command.apply session) := by
  rcases command.moves tame fit admissible with moves | ⟨kept, middle, _, moves, same⟩
  · exact moves.fit tame fit
  · exact same ▸ fit_give_reduce (moves.fit tame fit) tame kept

theorem Settings.graph_of_valid {settings : Settings κ} (valid : settings.fault? = none) :
    settings.graph.fault? = none := by
  unfold Settings.fault? at valid
  split at valid
  · cases valid
  · cases valid
  · assumption

theorem new_ok {settings : Settings κ} {model : Model κ}
    (made : new settings simplifier = .ok model) :
    model = ofSettings settings simplifier ∧ settings.fault? = none := by
  unfold new at made
  split at made
  · cases made
  · rename_i valid
    cases made
    exact ⟨rfl, valid⟩

theorem fit_new {settings : Settings κ} {model : Model κ} (supply : SymbolSupply)
    (made : new settings simplifier = .ok model) : Fit simplifier ⟨model, supply⟩ := by
  obtain ⟨rfl, valid⟩ := new_ok made
  have graph : Graph.new settings.graph simplifier = .ok (.ofSettings settings.graph simplifier) := by
    rw [Graph.new, Settings.graph_of_valid valid]
  exact {
    graph := .start supply graph
    listed := fun _ member => absurd member List.not_mem_nil
    coordinates := fun found => absurd found.symm (Option.some_ne_none _)
    apart := fun _ found => absurd found.symm (Option.some_ne_none _)
    joints := fun _ member => absurd member List.not_mem_nil
    loops := fun found => absurd found.symm (Option.some_ne_none _)
    entered := fun _ member => absurd member List.not_mem_nil }

theorem ReachableBy.fit {allowed : Command κ → Prop}
    (reachable : ReachableBy allowed simplifier session) (tame : simplifier.Tame) :
    Fit simplifier session := by
  induction reachable with
  | start supply made => exact fit_new supply made
  | step command _ admissible _ ih => exact command.fit tame ih admissible

/-- The sessions that come from a given one by commands that are allowed in the sessions in which
they are given, whether they succeed or fail. -/
inductive LeadsBy (allowed : Session κ → Command κ → Prop) (first : Session κ) :
    Session κ → Prop where
  | start : LeadsBy allowed first first
  | step {session : Session κ} (command : Command κ) (before : LeadsBy allowed first session)
      (admissible : command.Admissible session.supply) (isAllowed : allowed session command) :
      LeadsBy allowed first (command.apply session)

/-- All commands but reductions. -/
def Command.Spares : Command κ → Prop
  | .reduce _ => False
  | _ => True

theorem LeadsBy.moves {first : Session κ}
    (leads : LeadsBy (fun _ command => command.Spares) first session) (tame : simplifier.Tame)
    (fit : Fit simplifier first) : Moves first session := by
  induction leads with
  | start => exact .refl
  | step command _ admissible spares ih =>
      rcases command.moves tame (ih.fit tame fit) admissible with moves | ⟨_, _, rfl, _⟩
      · exact ih.trans moves
      · exact spares.elim

/-- No message of a session that is looked at shows a number, so the whole part is enough. -/
noncomputable instance : ScalarText RealNumber where
  expression number := toString ⌊number.value⌋
  full number := toString ⌊number.value⌋
  scientific number := toString ⌊number.value⌋

theorem standard_regular : (Loop.Settings.standard : Loop.Settings RealNumber).fault? = none :=
  if_pos (decide_eq_true (by norm_num : (0 : ℝ) < 1 / ((Nat.pow 10 10 : ℕ) : ℤ)))

theorem new_standard : new .standard (Simplifier.keep : Simplifier RealNumber) =
    .ok (ofSettings .standard Simplifier.keep) := by
  have graph : (Settings.standard : Settings RealNumber).graph.fault? = none := rfl
  have loops : (Settings.standard : Settings RealNumber).loops.fault? = none := standard_regular
  have valid : (Settings.standard : Settings RealNumber).fault? = none := by
    rw [Settings.fault?, graph, loops]
  rw [new, valid]

end Mechanism.Model
