import Mechanism.Proofs.Graph.Reachability

/-!
The revision of the bindings. Only a binding raises it, so that two moments of a run with one
revision have the same bindings.
-/

open Relation (ReflTransGen)

namespace Mechanism.Graph

variable {κ : Type} [Scalar κ] {simplifier : Simplifier κ} {before after : Session κ}

structure Store.Keeps (before after : Store κ) : Prop where
  bindings : after.bindings = before.bindings
  revision : after.revision = before.revision

theorem Store.Keeps.refl (store : Store κ) : Store.Keeps store store := ⟨rfl, rfl⟩

theorem Store.Keeps.trans {first second third : Store κ} (left : Store.Keeps first second)
    (right : Store.Keeps second third) : Store.Keeps first third :=
  ⟨right.bindings.trans left.bindings, right.revision.trans left.revision⟩

theorem Store.keeps_evict (symbols : List Symbol) (store : Store κ) :
    Store.Keeps store (symbols.foldl Store.evict store) := by
  induction symbols generalizing store with
  | nil => exact .refl store
  | cons head tail ih => exact (⟨rfl, rfl⟩ : Keeps store (store.evict head)).trans (ih _)

theorem keeps_follow {graph : Graph κ} {path : List Nat} {enter : Nat → Store κ → Visit κ}
    (enters : ∀ index store, Store.Keeps store (enter index store).1) (outcome : Visit κ)
    (read : Symbol) : Store.Keeps outcome.1 (graph.follow path enter outcome read).1 := by
  obtain ⟨store, _ | cycle⟩ := outcome
  · unfold follow
    simp only
    split
    · exact .refl store
    · split
      · exact .refl store
      · split
        · exact .refl store
        · exact enters _ store
  · exact .refl store

theorem keeps_foldl_follow {graph : Graph κ} {path : List Nat} {enter : Nat → Store κ → Visit κ}
    (enters : ∀ index store, Store.Keeps store (enter index store).1) (reads : List Symbol)
    (outcome : Visit κ) :
    Store.Keeps outcome.1 (reads.foldl (graph.follow path enter) outcome).1 := by
  induction reads generalizing outcome with
  | nil => exact .refl _
  | cons head tail ih => exact (keeps_follow enters outcome head).trans (ih _)

theorem keeps_visit (graph : Graph κ) (fuel : Nat) (path : List Nat) (index : Nat)
    (store : Store κ) : Store.Keeps store (graph.visit fuel path index store).1 := by
  induction fuel generalizing path index store with
  | zero => exact .refl store
  | succ fuel ih =>
      unfold visit
      split
      · exact .refl store
      · rename_i node _
        have folded : Store.Keeps store (node.reads.foldl (graph.follow path fun next store =>
            graph.visit fuel (path ++ [next]) next store) (store, none)).1 :=
          keeps_foldl_follow (fun next store => ih (path ++ [next]) next store) node.reads
            (store, none)
        simp only
        split <;> rename_i same <;> rw [same] at folded
        · exact folded
        · exact ⟨folded.bindings, folded.revision⟩

theorem keeps_refresh (graph : Graph κ) (symbol : Symbol) (index : Nat) :
    Store.Keeps graph.store (graph.refresh symbol index).1 := by
  unfold refresh
  split
  · exact .refl _
  · exact keeps_visit graph _ _ index graph.store

/-- Inputs stay inputs, and bindings that have not got a new revision are the same. -/
structure Later (before after : Session κ) : Prop where
  inputs : ∀ symbol, before.graph.isInput symbol = true → after.graph.isInput symbol = true
  revision : before.graph.store.revision ≤ after.graph.store.revision
  bindings : after.graph.store.revision = before.graph.store.revision →
    after.graph.store.bindings = before.graph.store.bindings

theorem Later.of_keeps (inputs : after.graph.inputs = before.graph.inputs)
    (keeps : Store.Keeps before.graph.store after.graph.store) : Later before after :=
  ⟨fun symbol input => by rwa [isInput, inputs], keeps.revision.ge, fun _ => keeps.bindings⟩

theorem Later.refl (session : Session κ) : Later session session := .of_keeps rfl (.refl _)

theorem Later.trans {first second third : Session κ} (left : Later first second)
    (right : Later second third) : Later first third where
  inputs := fun symbol input => right.inputs symbol (left.inputs symbol input)
  revision := left.revision.trans right.revision
  bindings := by
    intro same
    have middle : second.graph.store.revision = first.graph.store.revision :=
      le_antisymm (same ▸ right.revision) left.revision
    exact (right.bindings (same.trans middle.symm)).trans (left.bindings middle)

theorem Change.later (change : Change before after) : Later before after := by
  cases change with
  | issue | relink => exact .of_keeps rfl (.refl _)
  | input _ added =>
      rcases addInput_ok added with rfl | ⟨_, rfl⟩
      · exact .refl _
      · exact ⟨fun other input => isInput_insert.mpr (Or.inr input), le_rfl, fun _ => rfl⟩
  | @bind symbol value graph bound =>
      obtain ⟨_, rfl⟩ := bindInput_ok bound
      have raised := (Store.keeps_evict (({ before.graph with
        store := before.graph.store.bind symbol value } : Graph κ).dependents symbol)
          (before.graph.store.bind symbol value)).revision
      exact ⟨fun _ input => input, (Nat.le_succ _).trans raised.ge,
        fun same => absurd (raised.symm.trans same) (Nat.succ_ne_self _)⟩
  | define _ _ added =>
      rcases addEquation_ok added with ⟨_, rfl⟩ | ⟨_, _, _, _, rfl⟩
      · exact .refl _
      · exact .of_keeps rfl (Store.keeps_evict _ _)
  | evaluate evaluates =>
      obtain ⟨found⟩ := evaluates
      exact .of_keeps rfl (keeps_refresh ..)

theorem Changes.later (changes : Changes before after) : Later before after := by
  induction changes with
  | refl => exact .refl _
  | tail _ last ih => exact ih.trans last.later

theorem Fit.later (fit : Fit simplifier before) (modest : simplifier.Modest) (command : Command κ)
    (issued : command.Issued before.supply) : Later before (command.apply before) := by
  have outcome := fit.outcome modest command issued
  generalize command.apply before = reached at outcome
  cases outcome with
  | changed changes => exact changes.later
  | built orderly _ =>
      have improved := optimized_improved orderly.relink (fit.simplifier_eq ▸ modest)
      have store : (before.graph.relink.optimized before.supply).graph.store = before.graph.store :=
        improved.store
      have bindings := congrArg Store.bindings store
      have revision := congrArg Store.revision store
      exact .of_keeps improved.inputs ⟨bindings, revision⟩
  | reduced reduced =>
      obtain ⟨_, indices, _, _, _, rfl⟩ := reduce_eq_ok reduced
      have dropped := foldl_dropNode_dropped indices before.graph
      refine .of_keeps dropped.inputs ?_
      change Store.Keeps before.graph.store (indices.foldl dropNode before.graph).store
      rw [dropped.store]
      exact Store.keeps_evict _ _

theorem isInput_of_addInput {graph after : Graph κ} {symbol : Symbol} {categories : CategorySet}
    (added : addInput symbol categories graph = .ok after) : after.isInput symbol = true := by
  unfold addInput at added
  split at added
  · cases added
  · split at added
    · cases added
    · rename_i existing _ found
      split at added <;> cases added
      simp [isInput, Table.contains, found]
    · cases added
      exact isInput_insert.mpr (.inl rfl)

theorem isInput_of_declareInput {symbol : Symbol} {categories : CategorySet}
    {initial : Option (Tensor κ)}
    (declared : (declareInput symbol categories initial).perform before = (.ok ⟨⟩, after)) :
    after.graph.isInput symbol = true := by
  unfold declareInput at declared
  rw [Action.perform_bind, Action.perform_update] at declared
  cases added : addInput symbol categories before.graph with
  | error error =>
      rw [added] at declared
      cases declared
  | ok graph =>
      have isInput := isInput_of_addInput added
      rw [added] at declared
      cases initial with
      | none =>
          cases declared
          exact isInput
      | some value =>
          change (Action.update (bindInput symbol value)).perform { before with graph := graph } = _
            at declared
          rw [Action.perform_update] at declared
          split at declared <;> cases declared
          rename_i bound
          obtain ⟨_, rfl⟩ := bindInput_ok bound
          exact isInput

theorem Leads.later {allowed : Session κ → Command κ → Prop} (leads : Leads allowed before after)
    (tame : simplifier.Tame) (reachable : Reachable simplifier before) : Later before after := by
  induction leads with
  | start => exact .refl _
  | step command earlier admissible _ ih =>
      exact ih.trans (((earlier.reachable reachable).fit tame).later tame.toModest command
        admissible.issued)

def Command.Quiet : Command κ → Prop
  | .register .. | .define .. | .build | .reduce _ => False
  | _ => True

structure Rests (before after : Session κ) : Prop where
  nodes : after.graph.nodes = before.graph.nodes
  definitions : after.graph.definitions = before.graph.definitions
  aliases : after.graph.aliases = before.graph.aliases

theorem Rests.refl (session : Session κ) : Rests session session := ⟨rfl, rfl, rfl⟩

theorem Rests.trans {first second third : Session κ} (left : Rests first second)
    (right : Rests second third) : Rests first third :=
  ⟨right.nodes.trans left.nodes, right.definitions.trans left.definitions,
    right.aliases.trans left.aliases⟩

theorem rests_addInput {symbol : Symbol} {categories : CategorySet} {graph : Graph κ}
    (added : addInput symbol categories before.graph = .ok graph) :
    Rests before { before with graph := graph } := by
  rcases addInput_ok added with rfl | ⟨_, rfl⟩ <;> exact ⟨rfl, rfl, rfl⟩

theorem rests_bindInput {symbol : Symbol} {value : Tensor κ} {graph : Graph κ}
    (bound : bindInput symbol value before.graph = .ok graph) :
    Rests before { before with graph := graph } := by
  obtain ⟨_, rfl⟩ := bindInput_ok bound
  exact ⟨rfl, rfl, rfl⟩

theorem rests_update {change : Graph κ → Except (GraphError κ) (Graph κ)}
    (rests : ∀ graph, change before.graph = .ok graph →
      Rests before { before with graph := graph }) :
    Rests before ((Action.update change).perform before).2 := by
  rw [Action.perform_update]
  cases changed : change before.graph with
  | error _ => exact .refl before
  | ok graph => exact rests graph changed

theorem rests_declareInput (symbol : Symbol) (categories : CategorySet)
    (initial : Option (Tensor κ)) :
    Rests before ((declareInput symbol categories initial).perform before).2 := by
  have added : Rests before ((Action.update (addInput symbol categories)).perform before).2 :=
    rests_update fun _ => rests_addInput
  unfold declareInput
  rw [Action.perform_bind]
  split <;> rename_i ran <;> rw [ran] at added
  · cases initial with
    | none => exact added
    | some value => exact added.trans (rests_update fun _ => rests_bindInput)
  · exact added

theorem rests_of_evaluates (evaluates : ReflTransGen Evaluates before after) :
    Rests before after := by
  induction evaluates with
  | refl => exact .refl before
  | tail _ last ih =>
      obtain ⟨_⟩ := last
      exact ih.trans ⟨rfl, rfl, rfl⟩

theorem later_of_evaluates (evaluates : ReflTransGen Evaluates before after) :
    Later before after :=
  (changes_of_evaluates evaluates).later

theorem Command.Quiet.rests {command : Command κ} (quiet : command.Quiet) (session : Session κ) :
    Rests session (command.apply session) := by
  unfold Command.apply
  cases command with
  | register | define | build | reduce => exact quiet.elim
  | issue => exact ⟨rfl, rfl, rfl⟩
  | bind symbol value => exact rests_update fun _ => rests_bindInput
  | query symbol =>
      rw [Command.action, perform_ignore]
      exact rests_of_evaluates (valueOf_evaluates session symbol)
  | queryNumbers symbol =>
      rw [Command.action, perform_ignore]
      exact rests_of_evaluates (numbersOf_evaluates session symbol)
  | declareInput symbol categories initial => exact rests_declareInput symbol categories initial

theorem Leads.rests (leads : Leads (fun _ command => command.Quiet) before after) :
    Rests before after := by
  induction leads with
  | start => exact .refl before
  | step command _ _ quiet ih => exact ih.trans (quiet.rests _)

end Mechanism.Graph
