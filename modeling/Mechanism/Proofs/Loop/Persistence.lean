import Mechanism.Proofs.Loop.Acceptance
import Mechanism.Proofs.Loop.Values

/-!
What lasts while a loop is brought into a graph, whether that succeeds or fails: all that is kept
by queries, by new symbols and by the definitions that a loop may make.
-/

open Relation (ReflTransGen)

namespace Mechanism

namespace Graph

variable {κ : Type} [Scalar κ] {graph after : Graph κ}

structure Tidy (graph : Graph κ) : Prop where
  defined : ∀ symbol index, graph.definitions.find? symbol = some index →
    graph.isInput symbol = false
  aliases : ∀ symbol, graph.aliases.find? symbol = none

theorem Tidy.addEquation {name : String} {symbol : Symbol} {value : Tensor κ}
    {categories : CategorySet} (tidy : graph.Tidy)
    (added : addEquation name symbol value categories graph = .ok after) : after.Tidy := by
  rcases addEquation_ok added with ⟨_, rfl⟩ | ⟨_, _, noInput, _, rfl⟩
  · exact tidy
  · constructor
    · intro other index found
      change (graph.appendNode _).definitions.find? other = some index at found
      rw [find?_definitions_appendNode] at found
      split at found
      · rename_i same
        exact same ▸ noInput
      · exact tidy.defined other index found
    · intro other
      have erased := Table.find?_erase graph.aliases symbol other
      rw [tidy.aliases, ite_self] at erased
      exact erased

variable [Exact κ]

theorem Tidy.settles (tidy : graph.Tidy) (inputs : Symbol → Nat → ℝ) (symbol : Symbol) :
    graph.Settles (graph.unfolding inputs) symbol := by
  intro node found index number means
  have place := found
  rw [nodeOf?_eq, Option.bind_eq_some_iff] at place
  obtain ⟨place, defined, _⟩ := place
  refine (unfolding_solves graph inputs).content (tidy.defined symbol place defined) ?_ means
  rw [content?, found]

theorem Tidy.respects (tidy : graph.Tidy) (environment : Environment) (symbol : Symbol) :
    graph.Respects environment symbol := by
  intro target found
  rw [tidy.aliases symbol] at found
  cases found

end Graph

namespace Loop

variable {κ α β : Type} [Scalar κ]

/-- The property is kept by everything that is done for a loop which defines only symbols that are
allowed. -/
structure Lasting (allowed : Symbol → Prop) (property : Graph.Session κ → Prop) : Prop where
  asked : ∀ {before after : Graph.Session κ}, Graph.Evaluates before after → property before →
    property after
  issued : ∀ {session : Graph.Session κ} (name : String) (shape : Shape), property session →
    allowed (session.supply.fresh name shape).1 ∧
      property { session with supply := (session.supply.fresh name shape).2 }
  defined : ∀ {session : Graph.Session κ} {symbol : Symbol} {value : Tensor κ} {graph : Graph κ},
    allowed symbol → property session →
      Graph.addEquation symbol.name symbol value (.only .loopInternal) session.graph = .ok graph →
        property { session with graph := graph }

def Maintains (property : Graph.Session κ → Prop) (action : Action κ α) : Prop :=
  ∀ session, property session → property (action.perform session).2

namespace Maintains

variable {property : Graph.Session κ → Prop}

theorem pure (value : α) : Maintains property (Pure.pure value : Action κ α) :=
  fun _ holds => holds

theorem throw (error : LoopError κ) : Maintains property (MonadExcept.throw error : Action κ α) :=
  fun _ holds => holds

theorem bind {action : Action κ β} {next : β → Action κ α} (first : Maintains property action)
    (rest : ∀ value, Maintains property (next value)) : Maintains property (action >>= next) := by
  intro session holds
  have middle := first session holds
  rw [Action.perform_bind]
  split <;> rename_i ran <;> rw [ran] at middle
  · exact rest _ _ middle
  · exact middle

theorem ofAlgebra (result : Except AlgebraError α) :
    Maintains property (Action.ofAlgebra result : Action κ α) := by
  cases result with
  | ok value => exact pure value
  | error error => exact throw _

theorem forM {items : List β} {action : β → Action κ Unit}
    (each : ∀ item ∈ items, Maintains property (action item)) :
    Maintains property (items.forM action) := by
  induction items with
  | nil => exact pure ()
  | cons head tail ih =>
      rw [List.forall_mem_cons] at each
      rw [List.forM]
      exact each.1.bind fun _ => ih each.2

end Maintains

namespace Lasting

variable {allowed : Symbol → Prop} {property : Graph.Session κ → Prop}
  (lasting : Lasting allowed property)

include lasting

theorem evaluated {before after : Graph.Session κ}
    (evaluated : ReflTransGen Graph.Evaluates before after) (holds : property before) :
    property after := by
  induction evaluated with
  | refl => exact holds
  | tail _ last ih => exact lasting.asked last ih

theorem define {symbol : Symbol} (among : allowed symbol) (value : Tensor κ) :
    Maintains property (define symbol value) := by
  intro session holds
  unfold Loop.define
  rw [Action.perform_bind, Action.perform_onGraph, Graph.perform_register]
  split <;> rename_i ran <;> split at ran <;> rename_i registered <;>
    split at registered <;> cases registered <;> cases ran
  · rename_i added
    exact lasting.defined among holds added
  · exact holds

theorem defineNew (name : String) (rows columns : Nat) (value : Tensor κ) :
    Maintains property (defineNew name rows columns value) := by
  intro session holds
  obtain ⟨among, later⟩ := lasting.issued name (Shape.ofDimensions rows columns) holds
  unfold Loop.defineNew
  rw [Action.perform_bind, Action.perform_onGraph, Graph.Action.perform_freshSymbol]
  exact ((lasting.define among value).bind fun _ => .pure _) _ later

theorem defineEach {symbols : List Symbol} (among : ∀ symbol ∈ symbols, allowed symbol)
    (column : Tensor κ) : Maintains property (defineEach column symbols) := by
  refine .forM fun item member => ?_
  refine (Maintains.ofAlgebra _).bind fun entry => lasting.define (among _ ?_) _
  exact List.fst_mem_of_mem_zipIdx member

theorem exists_rest (name : String) (derivation : Derivation κ)
    (velocities : ∀ symbol ∈ derivation.geometry.dependent.map Coordinate.velocity, allowed symbol)
    (accelerations : ∀ symbol ∈ derivation.geometry.dependent.map Coordinate.acceleration,
      allowed symbol) :
    ∃ rest : Action κ (Artifacts κ), Maintains property rest ∧
      register name derivation = (do
        (derivation.geometry.dependent.zip derivation.geometry.solution).forM fun item =>
          Loop.define item.1.position (.ofExpr item.2)
        rest) := by
  refine ⟨_, ?_, rfl⟩
  refine (lasting.defineNew _ _ _ _).bind fun ju => (lasting.defineNew _ _ _ _).bind fun jv => ?_
  refine (Maintains.ofAlgebra _).bind fun inverse => (lasting.defineNew _ _ _ _).bind fun _ => ?_
  refine (Maintains.ofAlgebra _).bind fun ratio => (lasting.defineNew _ _ _ _).bind fun bvu => ?_
  refine (Maintains.ofAlgebra _).bind fun followed =>
    (lasting.defineEach velocities followed).bind fun _ => ?_
  refine (lasting.defineNew _ _ _ _).bind fun drift => (Maintains.ofAlgebra _).bind fun _ => ?_
  refine (lasting.defineNew _ _ _ _).bind fun bPrime => (Maintains.ofAlgebra _).bind fun _ => ?_
  refine (Maintains.ofAlgebra _).bind fun total =>
    (lasting.defineEach accelerations total).bind fun _ => .pure _

theorem register {derivation : Derivation κ} (name : String)
    (among : ∀ symbol ∈ Coordinate.allSymbols derivation.geometry.dependent, allowed symbol) :
    Maintains property (register name derivation) := by
  simp only [Coordinate.allSymbols, List.mem_append, or_imp, forall_and] at among
  obtain ⟨⟨positions, velocities⟩, accelerations⟩ := among
  obtain ⟨rest, maintains, same⟩ := lasting.exists_rest name derivation velocities accelerations
  rw [same]
  exact (Maintains.forM fun item member => lasting.define (positions _
    (List.mem_map_of_mem (List.of_mem_zip member).1)) _).bind fun _ => maintains

theorem numbersOf (symbols : List Symbol) (known : Numbers κ) {session : Graph.Session κ}
    (holds : property session) : property ((Loop.numbersOf symbols known).run session).2 :=
  lasting.evaluated (numbersOf_evaluates session symbols known) holds

theorem checkRegularity (name : String) (settings : Settings κ) (derivation : Derivation κ) :
    Maintains property (checkRegularity name settings derivation) := by
  unfold Loop.checkRegularity
  refine Maintains.bind (fun session holds => lasting.numbersOf _ _ holds) fun found => ?_
  split
  · exact .pure _
  · refine (Maintains.ofAlgebra _).bind fun configuration => ?_
    split
    · exact .throw _
    · exact .pure _

theorem insert {derivation : Derivation κ} (descriptor : Descriptor κ)
    (among : ∀ symbol ∈ Coordinate.allSymbols derivation.geometry.dependent, allowed symbol) :
    Maintains property (descriptor.insert derivation) := by
  unfold Descriptor.insert
  split
  · exact (lasting.checkRegularity _ _ _).bind fun _ => lasting.register _ among
  · exact lasting.register _ among

theorem close {descriptor : Descriptor κ}
    (among : ∀ derivation, descriptor.derive.1 = .ok derivation →
      ∀ symbol ∈ Coordinate.allSymbols derivation.geometry.dependent, allowed symbol)
    {session : Graph.Session κ} (holds : property session) :
    property (descriptor.close session).session := by
  unfold Descriptor.close
  split
  · exact holds
  · generalize descriptor.derive = stage at among
    obtain ⟨_ | derivation, later⟩ := stage
    · exact holds
    · have kept := lasting.insert later (among derivation rfl) session holds
      unfold Action.perform at kept
      simp only
      split <;> rename_i ran <;> rw [ran] at kept <;> exact kept

theorem verify (descriptor : Descriptor κ) : Maintains property descriptor.verify := by
  unfold Descriptor.verify
  split
  · exact lasting.checkRegularity _ _ _
  · exact .pure _

end Lasting

theorem lasting_tidy (inputs : Table Symbol CategorySet) :
    Lasting (fun _ => True) fun session : Graph.Session κ =>
      session.graph.Tidy ∧ session.graph.inputs = inputs where
  asked := by
    rintro _ _ ⟨_⟩ ⟨tidy, same⟩
    exact ⟨⟨tidy.defined, tidy.aliases⟩, same⟩
  issued := fun _ _ holds => ⟨trivial, holds⟩
  defined := by
    rintro session symbol value graph - ⟨tidy, same⟩ added
    refine ⟨tidy.addEquation added, ?_⟩
    rcases Graph.addEquation_ok added with ⟨_, rfl⟩ | ⟨_, _, _, _, rfl⟩ <;> exact same

theorem lasting_vacant (symbol : Symbol) : Lasting (· ≠ symbol) fun session : Graph.Session κ =>
    session.graph.Indexed ∧ session.graph.Vacant symbol ∧ symbol.number < session.supply.next where
  asked := by
    rintro _ _ ⟨_⟩ ⟨indexed, vacant, issued⟩
    exact ⟨indexed, ⟨vacant.undefined, vacant.noInput⟩, issued⟩
  issued := fun _ _ ⟨indexed, vacant, issued⟩ => ⟨fun same => lt_irrefl _ (same ▸ issued),
    indexed, ⟨vacant.undefined, vacant.noInput⟩, issued.trans (Nat.lt_succ_self _)⟩
  defined := by
    rintro session other value graph differs ⟨indexed, vacant, issued⟩ added
    rcases Graph.addEquation_ok added with ⟨_, rfl⟩ | ⟨_, _, _, undefined, rfl⟩
    · exact ⟨indexed, vacant, issued⟩
    · exact ⟨indexed.appendNode _, indexed.vacant_entered differs vacant, issued⟩

theorem lasting_defined (symbol : Symbol) (property : Graph.Node κ → Prop) :
    Lasting (fun _ => True) fun session : Graph.Session κ =>
      session.graph.Indexed ∧ ∃ node, session.graph.nodeOf? symbol = some node ∧ property node where
  asked := by
    rintro _ _ ⟨_⟩ holds
    exact holds
  issued := fun _ _ holds => ⟨trivial, holds⟩
  defined := by
    rintro session other value graph - ⟨indexed, node, found, holds⟩ added
    rcases Graph.addEquation_ok added with ⟨_, rfl⟩ | ⟨_, _, _, undefined, rfl⟩
    · exact ⟨indexed, node, found, holds⟩
    · refine ⟨indexed.appendNode _, node, (indexed.nodeOf?_appendNode ?_).trans found, holds⟩
      intro same
      have here : session.graph.nodeOf? other = some node := (congrArg _ same).trans found
      rw [Graph.isDefined_eq, here] at undefined
      cases undefined

end Loop

end Mechanism
