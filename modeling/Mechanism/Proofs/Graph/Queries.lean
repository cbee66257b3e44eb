import Mechanism.Graph.Extraction
import Mechanism.Proofs.Graph.Registration

/-!
Runs of a graph. A session is reachable when it comes from a new graph by commands, in any order,
whether they succeed or fail. Symbols may be made for other purposes at any time. A query fills the
cache and changes nothing else.
-/

open Relation (ReflTransGen)

namespace Mechanism.Graph

variable {κ α β : Type} [Scalar κ]

theorem toOption_eq_some {ε : Type} {result : Except ε α} {value : α} :
    result.toOption = some value ↔ result = .ok value := by
  cases result <;> simp [Except.toOption]

namespace Action

def perform (action : Action κ α) (session : Session κ) :
    Except (GraphError κ) α × Session κ :=
  action.run.run session

variable (session : Session κ)

theorem perform_eq_ok {action : Action κ α} {session : Session κ} {value : α}
    (succeeds : (action.perform session).1.toOption = some value) :
    ∃ later, action.perform session = (.ok value, later) :=
  ⟨_, Prod.ext (toOption_eq_some.mp succeeds) rfl⟩

theorem perform_pure (value : α) : (pure value : Action κ α).perform session = (.ok value, session) :=
  rfl

theorem perform_throw (error : GraphError κ) :
    (throw error : Action κ α).perform session = (.error error, session) := rfl

theorem perform_bind (action : Action κ α) (next : α → Action κ β) :
    (action >>= next).perform session =
      match action.perform session with
      | (.ok value, later) => (next value).perform later
      | (.error error, later) => (.error error, later) := by
  change ((action.run >>= ExceptT.bindCont next).run session) = _
  rw [StateT.run_bind]
  change (match action.run.run session with | (value, later) => _) = _
  unfold perform
  rcases action.run.run session with ⟨_ | _, later⟩ <;> rfl

theorem perform_get : (get : Action κ (Session κ)).perform session = (.ok session, session) := rfl

theorem perform_set (later : Session κ) :
    (set later : Action κ PUnit).perform session = (.ok ⟨⟩, later) := rfl

theorem perform_getGraph : getGraph.perform session = (.ok session.graph, session) := rfl

theorem perform_setGraph (graph : Graph κ) :
    (setGraph graph).perform session = (.ok ⟨⟩, { session with graph := graph }) := rfl

theorem perform_update (change : Graph κ → Except (GraphError κ) (Graph κ)) :
    (update change).perform session =
      match change session.graph with
      | .ok graph => (.ok ⟨⟩, { session with graph := graph })
      | .error error => (.error error, session) := by
  rw [update, perform_bind, perform_getGraph]
  cases found : change session.graph <;> simp only [found] <;> rfl

theorem perform_freshSymbol (name : String) (shape : Shape) :
    (freshSymbol name shape).perform session =
      (.ok (session.supply.fresh name shape).1,
        { session with supply := (session.supply.fresh name shape).2 }) := rfl

end Action

/-- What can be done with a graph. -/
inductive Command (κ : Type) [Scalar κ] where
  | issue (name : String) (shape : Shape) (domain : Domain)
  | declareInput (symbol : Symbol) (categories : CategorySet) (initial : Option (Tensor κ))
  | register (name : String) (symbol : Symbol) (value : Tensor κ) (categories : CategorySet)
  | define (name : String) (value : Tensor κ) (categories : CategorySet)
  | bind (symbol : Symbol) (value : Tensor κ)
  | query (symbol : Symbol)
  | queryNumbers (symbol : Symbol)
  | build
  | reduce (kept : CategorySet)

namespace Command

def action : Command κ → Action κ Unit
  | issue name shape domain =>
    modify fun session => { session with supply := (session.supply.fresh name shape domain).2 }
  | declareInput symbol categories initial => Graph.declareInput symbol categories initial
  | register name symbol value categories => do
    let _ ← Graph.register name symbol value categories
  | define name value categories => do
    let _ ← Graph.define name value categories
  | bind symbol value => Action.update (bindInput symbol value)
  | query symbol => do
    let _ ← valueOf symbol
  | queryNumbers symbol => do
    let _ ← numbersOf symbol
  | build => do
    let _ ← Graph.build
  | reduce kept => do
    let _ ← keepOnly kept

/-- The arguments exist: symbols have been issued, and a value to be registered has an entry for
every place of its shape and reads issued symbols. -/
def Issued (supply : SymbolSupply) : Command κ → Prop
  | declareInput symbol _ _ => symbol.number < supply.next
  | register _ symbol value _ => symbol.number < supply.next ∧ value.Issued supply.next
  | define _ value _ => value.Issued supply.next
  | _ => True

/-- The arguments exist, and values to be registered read symbols at places of theirs. -/
def Admissible (supply : SymbolSupply) : Command κ → Prop
  | declareInput symbol _ _ => symbol.number < supply.next
  | register _ symbol value _ => symbol.number < supply.next ∧ value.Regular supply.next
  | define _ value _ => value.Regular supply.next
  | _ => True

theorem Admissible.issued {supply : SymbolSupply} {command : Command κ}
    (admissible : command.Admissible supply) : command.Issued supply := by
  cases command with
  | register name symbol value categories => exact ⟨admissible.1, admissible.2.toIssued⟩
  | define name value categories => exact admissible.toIssued
  | declareInput symbol categories initial => exact admissible
  | issue | bind | query | queryNumbers | build | reduce => trivial

/-- The session after a command, which may have failed. -/
def apply (command : Command κ) (session : Session κ) : Session κ :=
  (command.action.perform session).2

end Command

/-- The sessions of graphs with the given simplifier, whatever places the values may read. -/
inductive Attainable (simplifier : Simplifier κ) : Session κ → Prop where
  | start {settings : Settings} {graph : Graph κ} (supply : SymbolSupply)
      (made : new settings simplifier = .ok graph) : Attainable simplifier ⟨graph, supply⟩
  | step {session : Session κ} (command : Command κ) (before : Attainable simplifier session)
      (issued : command.Issued session.supply) : Attainable simplifier (command.apply session)

/-- The sessions of graphs with the given simplifier whose values read symbols at places of theirs. -/
inductive Reachable (simplifier : Simplifier κ) : Session κ → Prop where
  | start {settings : Settings} {graph : Graph κ} (supply : SymbolSupply)
      (made : new settings simplifier = .ok graph) : Reachable simplifier ⟨graph, supply⟩
  | step {session : Session κ} (command : Command κ) (before : Reachable simplifier session)
      (admissible : command.Admissible session.supply) :
      Reachable simplifier (command.apply session)

theorem Reachable.attainable {simplifier : Simplifier κ} {session : Session κ}
    (reachable : Reachable simplifier session) : Attainable simplifier session := by
  induction reachable with
  | start supply made => exact .start supply made
  | step command _ admissible ih => exact .step command ih admissible.issued

open Store (Extends)

variable {limit : Nat}

/-- The second session differs from the first by values that its cache has got. -/
structure Queried (before after : Session κ) : Prop where
  supply : after.supply = before.supply
  graph : after.graph = { before.graph with store := after.graph.store }
  coherent : before.graph.Coherent after.graph.store
  grown : Extends before.graph.store after.graph.store

theorem Queried.refl {session : Session κ} (coherent : session.graph.Coherent session.graph.store) :
    Queried session session :=
  ⟨rfl, rfl, coherent, Extends.refl _⟩

theorem Queried.trans {first second third : Session κ} (left : Queried first second)
    (right : Queried second third) : Queried first third where
  supply := right.supply.trans left.supply
  graph := by rw [right.graph, left.graph]
  coherent := by
    have coherent := right.coherent
    rw [left.graph] at coherent
    exact ⟨coherent.bound, coherent.cached⟩
  grown := left.grown.trans right.grown

theorem Queried.valid {before after : Session κ} (queried : Queried before after)
    (valid : before.graph.Valid limit) : after.graph.Valid limit := by
  rw [queried.graph]
  exact valid.withStore queried.coherent

namespace Action

variable {session : Session κ} {symbol : Symbol}

theorem perform_valueWith_input (fuel : Nat) (input : session.graph.isInput symbol = true) :
    (valueWith (fuel + 1) symbol).perform session =
      (.ok ((session.graph.store.binding? symbol).getD (.ofSymbol symbol)), session) := by
  rw [valueWith, perform_bind, perform_getGraph]
  simp only [input, if_true]
  rfl

theorem perform_valueWith_defined (fuel : Nat) (noInput : session.graph.isInput symbol = false)
    {index : Nat} (live : session.graph.liveIndex? symbol = some index) :
    (valueWith (fuel + 1) symbol).perform session =
      ((match (session.graph.refresh symbol index).2,
          (session.graph.refresh symbol index).1.cached? symbol with
        | some cycle, _ => .error (Graph.cycleError
            { session.graph with store := (session.graph.refresh symbol index).1 } cycle)
        | none, some value => .ok value
        | none, none => .error (.unknownSymbol symbol.name)),
        { session with
          graph := { session.graph with store := (session.graph.refresh symbol index).1 } }) := by
  rw [valueWith, perform_bind, perform_getGraph]
  simp only [noInput, live]
  rw [if_neg (by decide), perform_bind, perform_setGraph]
  rcases session.graph.refresh symbol index with ⟨store, _ | cycle⟩
  · cases store.cached? symbol <;> rfl
  · rfl

theorem perform_valueWith_unknown (fuel : Nat) (noInput : session.graph.isInput symbol = false)
    (undefined : session.graph.liveIndex? symbol = none)
    (unknown : session.graph.aliases.find? symbol = none) :
    (valueWith (fuel + 1) symbol).perform session =
      (.error (.unknownSymbol symbol.name), session) := by
  rw [valueWith, perform_bind, perform_getGraph]
  simp only [noInput, undefined, unknown]
  rfl

/-- The parts of which a removed symbol is put together, with their values. -/
def partsWith (fuel : Nat) (parts : List Symbol) : Action κ (List (Symbol × Tensor κ)) :=
  parts.mapM fun part => do
    let value ← valueWith fuel part
    return (part, value)

def entryOf (parts : List (Symbol × Tensor κ)) (atom : Atom) : Option (Expr κ) := do
  let (_, value) ← parts.find? fun entry => entry.1 = atom.symbol
  (value.entryAt atom.flatIndex).toOption

theorem perform_valueWith_alias (fuel : Nat) (noInput : session.graph.isInput symbol = false)
    (undefined : session.graph.liveIndex? symbol = none) {target : Tensor κ}
    (known : session.graph.aliases.find? symbol = some target) :
    (valueWith (fuel + 1) symbol).perform session =
      match (partsWith fuel target.symbols).perform session with
      | (.ok parts, later) => (.ok (target.substitute (entryOf parts)), later)
      | (.error error, later) => (.error error, later) := by
  rw [valueWith, perform_bind, perform_getGraph]
  simp only [noInput, undefined, known]
  rw [if_neg (by decide), perform_bind]
  unfold partsWith
  split
  · rename_i same
    rw [same]
    rfl
  · rename_i same
    rw [same]

theorem perform_partsWith_nil (fuel : Nat) :
    (partsWith fuel []).perform session = (.ok [], session) := by
  rw [partsWith, List.mapM_nil]
  rfl

theorem perform_partsWith_cons (fuel : Nat) (part : Symbol) (parts : List Symbol) :
    (partsWith fuel (part :: parts)).perform session =
      match (valueWith fuel part).perform session with
      | (.ok value, later) =>
        match (partsWith fuel parts).perform later with
        | (.ok values, last) => (.ok ((part, value) :: values), last)
        | (.error error, last) => (.error error, last)
      | (.error error, later) => (.error error, later) := by
  rw [partsWith, List.mapM_cons, perform_bind, perform_bind]
  rcases (valueWith fuel part).perform session with ⟨error | value, later⟩
  · rfl
  · simp only
    rw [perform_pure]
    simp only
    rw [perform_bind]
    unfold partsWith
    split
    · rename_i same
      rw [same]
      rfl
    · rename_i same
      rw [same]

theorem perform_valueWith_blank (fuel : Nat) (noInput : session.graph.isInput symbol = false)
    (undefined : session.graph.liveIndex? symbol = none) {target : Tensor κ}
    (known : session.graph.aliases.find? symbol = some target) (blank : target.symbols = []) :
    (valueWith (fuel + 1) symbol).perform session =
      (.ok (target.substitute (entryOf [])), session) := by
  rw [perform_valueWith_alias fuel noInput undefined known, blank, perform_partsWith_nil]

theorem perform_valueWith_renamed (fuel : Nat) (noInput : session.graph.isInput symbol = false)
    (undefined : session.graph.liveIndex? symbol = none) {target : Tensor κ}
    (known : session.graph.aliases.find? symbol = some target) {other : Symbol}
    (single : target.symbols = [other]) :
    (valueWith (fuel + 1) symbol).perform session =
      match (valueWith fuel other).perform session with
      | (.ok value, later) => (.ok (target.substitute (entryOf [(other, value)])), later)
      | (.error error, later) => (.error error, later) := by
  rw [perform_valueWith_alias fuel noInput undefined known, single, perform_partsWith_cons]
  rcases (valueWith fuel other).perform session with ⟨_ | value, later⟩
  · rfl
  · simp only [perform_partsWith_nil]

end Action

open Mechanism.Graph.Action

inductive Evaluates : Session κ → Session κ → Prop where
  | refresh {session : Session κ} {symbol : Symbol} {index : Nat}
      (found : session.graph.liveIndex? symbol = some index) :
      Evaluates session { session with
        graph := { session.graph with store := (session.graph.refresh symbol index).1 } }

theorem Evaluates.queried {before after : Session κ} (evaluates : Evaluates before after)
    (valid : before.graph.Valid limit) : Queried before after := by
  cases evaluates with
  | refresh found =>
      have visited := refresh_visited valid.toLawful found valid.coherent
      exact ⟨rfl, rfl, visited.coherent, visited.grown⟩

theorem queried_of_evaluates {before after : Session κ} (valid : before.graph.Valid limit)
    (evaluates : ReflTransGen Evaluates before after) : Queried before after := by
  induction evaluates with
  | refl => exact Queried.refl valid.coherent
  | tail _ last ih => exact ih.trans (last.queried (ih.valid valid))

theorem partsWith_evaluates {fuel : Nat}
    (each : ∀ (session : Session κ) (symbol : Symbol),
      ReflTransGen Evaluates session ((valueWith fuel symbol).perform session).2)
    (symbols : List Symbol) (session : Session κ) :
    ReflTransGen Evaluates session ((partsWith fuel symbols).perform session).2 := by
  induction symbols generalizing session with
  | nil => exact ReflTransGen.refl
  | cons head tail ih =>
      have first := each session head
      rw [perform_partsWith_cons]
      rcases same : (valueWith fuel head).perform session with ⟨_ | value, later⟩
      · rwa [same] at first
      · rw [same] at first
        have both := first.trans (ih later)
        rcases again : (partsWith fuel tail).perform later with ⟨_ | values, last⟩
        · simpa only [again] using both
        · simpa only [again] using both

theorem valueWith_evaluates (fuel : Nat) (session : Session κ) (symbol : Symbol) :
    ReflTransGen Evaluates session ((valueWith fuel symbol).perform session).2 := by
  induction fuel generalizing session symbol with
  | zero => exact ReflTransGen.refl
  | succ fuel ih =>
      cases input : session.graph.isInput symbol with
      | true =>
          rw [perform_valueWith_input fuel input]
      | false =>
          cases live : session.graph.liveIndex? symbol with
          | some index =>
              rw [perform_valueWith_defined fuel input live]
              exact ReflTransGen.single (Evaluates.refresh live)
          | none =>
              cases known : session.graph.aliases.find? symbol with
              | none =>
                  rw [perform_valueWith_unknown fuel input live known]
              | some target =>
                  have parts := partsWith_evaluates ih target.symbols session
                  rw [perform_valueWith_alias fuel input live known]
                  rcases same : (partsWith fuel target.symbols).perform session with
                    ⟨_ | values, last⟩
                  · simpa only [same] using parts
                  · simpa only [same] using parts

theorem perform_valueOf (session : Session κ) (symbol : Symbol) :
    (valueOf symbol).perform session =
      (valueWith (session.graph.aliases.size + 1) symbol).perform session := by
  rw [valueOf, perform_bind, perform_getGraph]

theorem perform_valueWith_known {session : Session κ} {symbol : Symbol} (fuel : Nat)
    (known : session.graph.isInput symbol = true ∨ session.graph.isDefined symbol = true) :
    (valueWith (fuel + 1) symbol).perform session = (valueOf symbol).perform session := by
  rw [perform_valueOf]
  cases input : session.graph.isInput symbol with
  | true => rw [perform_valueWith_input _ input, perform_valueWith_input _ input]
  | false =>
      rw [input, or_iff_right Bool.false_ne_true] at known
      obtain ⟨index, live⟩ := Option.isSome_iff_exists.mp known
      rw [perform_valueWith_defined _ input live, perform_valueWith_defined _ input live]

theorem valueOf_evaluates (session : Session κ) (symbol : Symbol) :
    ReflTransGen Evaluates session ((valueOf symbol).perform session).2 := by
  rw [perform_valueOf]
  exact valueWith_evaluates _ session symbol

theorem valueOf_queried {session : Session κ} (valid : session.graph.Valid limit) (symbol : Symbol) :
    Queried session ((valueOf symbol).perform session).2 :=
  queried_of_evaluates valid (valueOf_evaluates session symbol)

theorem numbersOf_evaluates (session : Session κ) (symbol : Symbol) :
    ReflTransGen Evaluates session ((numbersOf symbol).perform session).2 := by
  have evaluates := valueOf_evaluates session symbol
  rw [numbersOf, perform_bind]
  rcases same : (valueOf symbol).perform session with ⟨_ | value, later⟩
  · simpa only [same] using evaluates
  · simpa only [same, perform_pure] using evaluates

theorem numbersOf_queried {session : Session κ} (valid : session.graph.Valid limit)
    (symbol : Symbol) : Queried session ((numbersOf symbol).perform session).2 :=
  queried_of_evaluates valid (numbersOf_evaluates session symbol)

end Mechanism.Graph
