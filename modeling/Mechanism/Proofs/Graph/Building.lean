import Mechanism.Proofs.Graph.Inlining
import Mechanism.Proofs.Graph.Queries
import Mechanism.Proofs.Graph.Removal

/-!
What a build does. The passes keep every value and leave a graph that can be evaluated, so the
levels that are looked for after them are always found.
-/

namespace Mechanism.Graph

variable {κ : Type} [Scalar κ] {limit : Nat} {graph : Graph κ}

/-- The second graph can be evaluated, and knows every old symbol of the first one, be it as the
alias of another symbol that has a value. -/
structure Improved (limit more : Nat) (before after : Graph κ) : Prop where
  le : limit ≤ more
  lawful : after.Lawful more
  settled : after.Settled
  acyclic : after.Acyclic
  placed : before.simplifier.Tame → before.Placed → after.Placed
  inputs : after.inputs = before.inputs
  store : after.store = before.store
  settings : after.settings = before.settings
  simplifier : after.simplifier = before.simplifier
  defined : ∀ symbol, symbol.number < limit → after.isDefined symbol = true →
    before.isDefined symbol = true
  kept : ∀ symbol, symbol.number < limit → before.isDefined symbol = true →
    after.isDefined symbol = true ∨ ∃ last, after.aliases.find? symbol = some (.ofSymbol last) ∧
      (after.isDefined last = true ∨ after.isInput last = true)
  old : ∀ symbol, symbol.number < limit → before.isDefined symbol = false →
    after.aliases.find? symbol = before.aliases.find? symbol

theorem Improved.refl (orderly : graph.Orderly limit) : Improved limit limit graph graph :=
  ⟨le_refl limit, orderly.toLawful, orderly.bound.settled, orderly.acyclic, fun _ => id, rfl, rfl, rfl,
    rfl, fun _ _ defined => defined, fun _ _ defined => Or.inl defined, fun _ _ _ => rfl⟩

theorem Rewritten.improved {more : Nat} {before middle after : Graph κ}
    (rewritten : Rewritten limit more before middle) (eliminated : Eliminated more middle after) :
    Improved limit more before after where
  le := rewritten.le
  lawful := eliminated.lawful
  settled := eliminated.settled
  acyclic := eliminated.acyclic
  placed := fun tame placed => eliminated.placed (rewritten.placed tame placed)
  inputs := eliminated.inputs.trans rewritten.inputs
  store := eliminated.store.trans rewritten.store
  settings := eliminated.settings.trans rewritten.settings
  simplifier := eliminated.simplifier.trans rewritten.simplifier
  defined := by
    intro symbol old defined
    rw [← rewritten.defined symbol old]
    exact eliminated.defined symbol defined
  kept := by
    intro symbol old defined
    rw [← rewritten.defined symbol old] at defined
    exact eliminated.kept symbol defined
  old := by
    intro symbol old undefined
    rw [← rewritten.defined symbol old] at undefined
    rw [eliminated.old symbol undefined, rewritten.aliases]

theorem Orderly.relink (orderly : graph.Orderly limit) : graph.relink.Orderly limit :=
  ⟨orderly.toLawful.congr rfl rfl rfl rfl, orderly.bound, orderly.acyclic⟩

theorem Eliminated.relink {before after : Graph κ} (eliminated : Eliminated limit before after) :
    Eliminated limit before after.relink :=
  ⟨eliminated.lawful.congr rfl rfl rfl rfl, eliminated.settled, eliminated.acyclic,
    fun placed => (eliminated.placed placed).of_node? fun _ => rfl, eliminated.inputs,
    eliminated.store, eliminated.settings, eliminated.simplifier, eliminated.defined, eliminated.kept,
    eliminated.old⟩

def shareWanted (graph : Graph κ) (supply : SymbolSupply) : Graph κ × SymbolSupply :=
  if graph.settings.shareCommon then
    ((graph.shareRepeated supply).1, (graph.shareRepeated supply).2.2)
  else (graph, supply)

theorem optimized_of_optimize {graph : Graph κ} (optimize : graph.settings.optimize = true)
    (supply : SymbolSupply) :
    (graph.optimized supply).graph =
        (graph.simplifyValues.1.foldDuplicates.1.shareWanted supply).1.eliminateAliases.1.relink ∧
      (graph.optimized supply).supply =
        (graph.simplifyValues.1.foldDuplicates.1.shareWanted supply).2 := by
  unfold optimized
  rw [if_pos optimize]
  rcases graph.simplifyValues with ⟨simplified, failures⟩
  rcases folding : simplified.foldDuplicates with ⟨folded, count⟩
  rw [shareWanted]
  simp only [folding]
  split
  · rcases folded.shareRepeated supply with ⟨shared, number, later⟩
    exact ⟨rfl, rfl⟩
  · exact ⟨rfl, rfl⟩

theorem optimized_eq (graph : Graph κ) (supply : SymbolSupply) :
    (graph.optimized supply).graph = graph ∧ (graph.optimized supply).supply = supply ∨
      (graph.optimized supply).graph =
          (graph.simplifyValues.1.foldDuplicates.1.shareWanted supply).1.eliminateAliases.1.relink ∧
        (graph.optimized supply).supply =
          (graph.simplifyValues.1.foldDuplicates.1.shareWanted supply).2 := by
  by_cases optimize : graph.settings.optimize = true
  · exact Or.inr (optimized_of_optimize optimize supply)
  · rw [optimized, if_neg optimize]
    exact Or.inl ⟨rfl, rfl⟩

variable {supply : SymbolSupply}

theorem shareWanted_rewritten (orderly : graph.Orderly supply.next) :
    Rewritten supply.next (graph.shareWanted supply).2.next graph (graph.shareWanted supply).1 := by
  unfold shareWanted
  split
  · exact shareRepeated_rewritten orderly
  · exact Rewritten.refl orderly

theorem shareWanted_refines [Exact κ] (orderly : graph.Orderly supply.next) :
    Refines (fun symbol => symbol.number < supply.next) graph (graph.shareWanted supply).1 := by
  unfold shareWanted
  split
  · exact shareRepeated_refines orderly
  · exact Refines.refl _ graph

theorem folded_rewritten (orderly : graph.Orderly limit) (modest : graph.simplifier.Modest) :
    Rewritten limit limit graph graph.simplifyValues.1.foldDuplicates.1 := by
  have simplified := simplifyValues_rewritten orderly modest
  exact simplified.trans (foldDuplicates_rewritten simplified.orderly)

theorem folded_refines [Exact κ] (orderly : graph.Orderly limit) (modest : graph.simplifier.Modest)
    (preserves : graph.simplifier.Preserves) (kept : Symbol → Prop) :
    Refines kept graph graph.simplifyValues.1.foldDuplicates.1 :=
  (simplifyValues_refines orderly modest preserves kept).trans
    (foldDuplicates_refines (simplifyValues_rewritten orderly modest).orderly kept)

theorem optimized_improved (orderly : graph.Orderly supply.next) (modest : graph.simplifier.Modest) :
    Improved supply.next (graph.optimized supply).supply.next graph
      (graph.optimized supply).graph := by
  rcases optimized_eq graph supply with ⟨same, supplySame⟩ | ⟨same, supplySame⟩
  · rw [same, supplySame]
    exact Improved.refl orderly
  · rw [same, supplySame]
    have folded := folded_rewritten orderly modest
    have shared := folded.trans (shareWanted_rewritten folded.orderly)
    exact shared.improved (eliminateAliases_eliminated shared.orderly).relink

theorem refines_relink [Exact κ] (kept : Symbol → Prop) (graph : Graph κ) :
    Refines kept graph graph.relink := by
  have isInput : graph.relink.isInput = graph.isInput := rfl
  have content : graph.relink.content? = graph.content? := rfl
  apply Refines.of_solves
  intro inputs environment solves
  constructor
  · intro symbol index input
    exact solves.input index (isInput ▸ input)
  · intro symbol index value tensor noInput found
    exact solves.content (isInput ▸ noInput) (content ▸ found)

theorem optimized_refines [Exact κ] (orderly : graph.Orderly supply.next) (placed : graph.Placed)
    (tame : graph.simplifier.Tame) (preserves : graph.simplifier.Preserves) :
    Refines (fun symbol => symbol.number < supply.next) graph (graph.optimized supply).graph := by
  rcases optimized_eq graph supply with ⟨same, _⟩ | ⟨same, _⟩
  · rw [same]
    exact Refines.refl _ graph
  · rw [same]
    have folded := folded_rewritten orderly tame.toModest
    have shared := shareWanted_rewritten folded.orderly
    exact (((folded_refines orderly tame.toModest preserves _).trans
      (shareWanted_refines folded.orderly)).trans (eliminateAliases_refines shared.orderly
        (shared.placed (folded.simplifier ▸ tame) (folded.placed tame placed)) _)).trans
          (refines_relink _ _)

theorem optimized_linked (linked : graph.Linked) : (graph.optimized supply).graph.Linked := by
  rcases optimized_eq graph supply with ⟨same, _⟩ | ⟨same, _⟩
  · rw [same]
    exact linked
  · rw [same]
    exact relink_linked _

open Mechanism.Graph.Action

theorem perform_levelsOrError (session : Session κ) (graph : Graph κ) :
    (levelsOrError graph).perform session =
      match graph.findLevels with
      | .ok levels => (.ok levels, session)
      | .error cycle => (.error (graph.cycleError cycle), session) := by
  unfold levelsOrError
  cases graph.findLevels <;> rfl

theorem perform_build (session : Session κ) :
    (∃ error, session.graph.unbound? = some error ∧
        build.perform session = (.error error, session)) ∨
      session.graph.unbound? = none ∧
        ((∃ cycle, session.graph.relink.findLevels = .error cycle ∧
          build.perform session = (.error (session.graph.relink.cycleError cycle),
            { session with graph := session.graph.relink })) ∨
        ∃ first, session.graph.relink.findLevels = .ok first ∧
          ((∃ cycle, (session.graph.relink.optimized session.supply).graph.findLevels =
              .error cycle) ∨
            ∃ levels,
              (session.graph.relink.optimized session.supply).graph.findLevels = .ok levels ∧
                build.perform session =
                  (.ok ((session.graph.relink.optimized session.supply).report session.graph.relink
                    ((session.graph.relink.optimized session.supply).graph.finished levels)),
                  ⟨(session.graph.relink.optimized session.supply).graph.finished levels,
                    (session.graph.relink.optimized session.supply).supply⟩))) := by
  cases unbound : session.graph.unbound? with
  | some error =>
      refine Or.inl ⟨error, rfl, ?_⟩
      rw [build, perform_bind, perform_getGraph]
      simp only [unbound]
      rw [perform_bind, perform_throw]
  | none =>
      refine Or.inr ⟨rfl, ?_⟩
      rw [build, perform_bind, perform_getGraph]
      simp only [unbound]
      rw [perform_bind, perform_setGraph]
      simp only
      rw [perform_bind, perform_levelsOrError]
      cases first : session.graph.relink.findLevels with
      | error cycle => exact Or.inl ⟨cycle, rfl, rfl⟩
      | ok levels =>
          refine Or.inr ⟨levels, rfl, ?_⟩
          simp only
          rw [perform_bind, perform_get]
          simp only
          rw [perform_bind, perform_set]
          simp only
          rw [perform_bind, perform_levelsOrError]
          cases second : (session.graph.relink.optimized session.supply).graph.findLevels with
          | error cycle => exact Or.inl ⟨cycle, rfl⟩
          | ok levels => exact Or.inr ⟨levels, rfl, rfl⟩

theorem Lawful.orderly_of_levels (lawful : graph.Lawful limit) (bound : graph.Bound)
    {levels : List (List Nat)} (found : graph.findLevels = .ok levels) : graph.Orderly limit := by
  obtain ⟨level, _, _, isLevel⟩ := findLevels_ordered found
  exact ⟨lawful, bound, isLevel.acyclic lawful⟩

theorem Lawful.valid_finished (lawful : graph.Lawful limit) (settled : graph.Settled)
    (linked : graph.Linked)
    (inputs : ∀ {symbol : Symbol} {value : Tensor κ},
      graph.store.binding? symbol = some value → graph.isInput symbol = true)
    {levels : List (List Nat)} (found : graph.findLevels = .ok levels) :
    (graph.finished levels).Valid limit where
  toLawful := lawful.congr rfl rfl rfl rfl
  linked := linked
  coherent := ⟨inputs, nofun⟩
  leveled := fun _ => ⟨settled, findLevels_ordered found⟩

variable {session : Session κ}

theorem build_outcome (lawful : session.graph.Lawful session.supply.next)
    (modest : session.graph.simplifier.Modest) :
    (∃ error, build.perform session = (.error error, session) ∨ build.perform session =
        (.error error, { session with graph := session.graph.relink })) ∨
      session.graph.Orderly session.supply.next ∧
        ∃ levels report,
          (session.graph.relink.optimized session.supply).graph.findLevels = .ok levels ∧
            build.perform session = (.ok report,
              ⟨(session.graph.relink.optimized session.supply).graph.finished levels,
                (session.graph.relink.optimized session.supply).supply⟩) := by
  rcases perform_build session with ⟨error, _, fails⟩ | ⟨bound, rest⟩
  · exact Or.inl ⟨error, Or.inl fails⟩
  rcases rest with ⟨cycle, _, fails⟩ | ⟨first, found, rest⟩
  · exact Or.inl ⟨_, Or.inr fails⟩
  have relinked : session.graph.relink.Lawful session.supply.next := lawful.congr rfl rfl rfl rfl
  have orderly : session.graph.relink.Orderly session.supply.next :=
    relinked.orderly_of_levels ((unbound?_eq_none lawful).mp bound) found
  have improved := optimized_improved orderly modest
  rcases rest with ⟨cycle, fails⟩ | ⟨levels, again, succeeds⟩
  · obtain ⟨levels, found⟩ := exists_findLevels improved.lawful improved.acyclic
    rw [fails] at found
    cases found
  · exact Or.inr ⟨⟨lawful, orderly.bound, orderly.acyclic⟩, levels, _, again, succeeds⟩

theorem Valid.relink (valid : graph.Valid limit) : graph.relink.Valid limit where
  toLawful := valid.toLawful.congr rfl rfl rfl rfl
  linked := relink_linked graph
  coherent := ⟨valid.coherent.bound, valid.coherent.cached⟩
  leveled := by
    intro built
    obtain ⟨settled, ordered⟩ := valid.leveled built
    exact ⟨settled, ordered⟩

theorem Valid.finished_optimized (valid : session.graph.Valid session.supply.next)
    (orderly : session.graph.Orderly session.supply.next) (modest : session.graph.simplifier.Modest)
    {levels : List (List Nat)}
    (found : (session.graph.relink.optimized session.supply).graph.findLevels = .ok levels) :
    ((session.graph.relink.optimized session.supply).graph.finished levels).Valid
      (session.graph.relink.optimized session.supply).supply.next := by
  have improved := optimized_improved orderly.relink modest
  apply improved.lawful.valid_finished improved.settled (optimized_linked (relink_linked _)) _ found
  intro symbol value bound
  rw [improved.store] at bound
  rw [isInput, improved.inputs]
  exact valid.coherent.bound bound

end Mechanism.Graph
