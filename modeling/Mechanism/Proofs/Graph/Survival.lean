import Mechanism.Proofs.Graph.Extraction
import Mechanism.Proofs.Graph.Redefinition

/-!
Which definitions outlive a build. Only those are removed that the passes have made plain references
to another symbol; whatever was defined once stays defined, or known as an alias.
-/

namespace Mechanism.Graph

open Mechanism.Graph.Action

variable {κ : Type} [Scalar κ] {limit : Nat} {graph : Graph κ} {symbol : Symbol}
  {simplifier : Simplifier κ} {session first later : Session κ}

theorem renamings_complete {node : Node κ} (live : graph.nodeOf? symbol = some node)
    (lawful : graph.Lawful limit) {target : Symbol}
    (renames : renames? node.equation = some target) : graph.renamings.find? symbol ≠ none := by
  have stays (step : Table Symbol Symbol → Equation κ → Table Symbol Symbol)
      (inserts : ∀ table equation target, renames? equation = some target →
        step table equation = table.insert equation.symbol target)
      (skips : ∀ table equation, renames? equation = none → step table equation = table)
      (equations : List (Equation κ)) (table : Table Symbol Symbol)
      (either : table.find? symbol ≠ none ∨
        ∃ equation ∈ equations, equation.symbol = symbol ∧ renames? equation = some target) :
      (equations.foldl step table).find? symbol ≠ none := by
    induction equations generalizing table with
    | nil =>
        refine either.resolve_right ?_
        rintro ⟨_, member, _⟩
        exact List.not_mem_nil member
    | cons head tail ih =>
        rw [List.foldl_cons]
        apply ih
        rcases either with found | ⟨equation, member, same, renamed⟩
        · left
          cases other : renames? head with
          | some target =>
              rw [inserts table head target other, Table.find?_insert]
              split
              · simp
              · exact found
          | none =>
              rw [skips table head other]
              exact found
        · rcases List.mem_cons.mp member with rfl | later
          · left
            rw [inserts table equation target renamed, Table.find?_insert, if_pos same]
            exact Option.some_ne_none _
          · exact Or.inr ⟨equation, later, same, renamed⟩
  obtain ⟨index, _, listed⟩ := nodeOf?_eq_some.mp live
  refine stays _ (fun table equation target renamed => by rw [renamed])
    (fun table equation still => by rw [still]) graph.equations ∅ (Or.inr ⟨node.equation, ?_, ?_⟩)
  · exact List.mem_map_of_mem (mem_liveNodes.mpr ⟨index, listed⟩)
  · exact ⟨lawful.symbol_eq live, renames⟩

theorem find?_renamings_eq_none (lawful : graph.Lawful limit) {node : Node κ}
    (live : graph.nodeOf? symbol = some node) :
    graph.renamings.find? symbol = none ↔ renames? node.equation = none := by
  constructor
  · intro none
    rw [Option.eq_none_iff_forall_ne_some]
    intro target renames
    exact renamings_complete live lawful renames none
  · intro none
    rw [Option.eq_none_iff_forall_ne_some]
    intro target found
    obtain ⟨other, again, renames⟩ := find?_renamings lawful found
    rw [live, Option.some.injEq] at again
    rw [again, renames] at none
    cases none

theorem isDefined_eliminateAliases (lawful : graph.Lawful limit) {node : Node κ}
    (live : graph.nodeOf? symbol = some node) :
    graph.eliminateAliases.1.isDefined symbol = true ↔ renames? node.equation = none := by
  have defined := isDefined_iff.mpr ⟨node, live⟩
  rw [← find?_renamings_eq_none lawful live]
  rcases eliminateAliases_cases graph with ⟨empty, same⟩ | same
  · rw [same]
    exact ⟨fun _ => empty symbol, fun _ => defined⟩
  · rw [same, (foldl_removeAlias graph.liveIndices (nodup_liveIndices graph) graph).isDefined_iff
      lawful, endsOf_eq_none]
    exact and_iff_right defined

/-- The graph in the midst of the passes: simplified, without duplicates and with its repeated parts
shared, before any renaming is removed. -/
def staged (graph : Graph κ) (supply : SymbolSupply) : Graph κ :=
  (graph.simplifyValues.1.foldDuplicates.1.shareWanted supply).1

/-- A build removes the definition of the symbol, since the passes leave nothing of it but a
reference to another symbol. -/
def Discards (session : Session κ) (symbol : Symbol) : Prop :=
  session.graph.settings.optimize = true ∧ ∃ node target,
    (session.graph.relink.staged session.supply).nodeOf? symbol = some node ∧
      renames? node.equation = some target

theorem staged_rewritten {supply : SymbolSupply} (orderly : graph.Orderly supply.next)
    (modest : graph.simplifier.Modest) :
    ∃ more, Rewritten supply.next more graph (graph.staged supply) := by
  have folded := folded_rewritten orderly modest
  exact ⟨_, folded.trans (shareWanted_rewritten folded.orderly)⟩

theorem isDefined_relink (graph : Graph κ) (symbol : Symbol) :
    graph.relink.isDefined symbol = graph.isDefined symbol := rfl

theorem isDefined_optimized {supply : SymbolSupply} (orderly : graph.Orderly supply.next)
    (modest : graph.simplifier.Modest) (optimize : graph.settings.optimize = true)
    (issued : symbol.number < supply.next) (defined : graph.isDefined symbol = true) :
    (graph.optimized supply).graph.isDefined symbol = true ↔
      ¬∃ node target, (graph.staged supply).nodeOf? symbol = some node ∧
        renames? node.equation = some target := by
  obtain ⟨more, rewritten⟩ := staged_rewritten orderly modest
  have passes : (graph.optimized supply).graph = (graph.staged supply).eliminateAliases.1.relink :=
    (optimized_of_optimize optimize supply).1
  obtain ⟨node, live⟩ := isDefined_iff.mp ((rewritten.defined symbol issued).trans defined)
  rw [passes, isDefined_relink, isDefined_eliminateAliases rewritten.orderly.toLawful live,
    Option.eq_none_iff_forall_ne_some, not_exists]
  constructor
  · rintro none other ⟨target, found, renames⟩
    rw [live, Option.some.injEq] at found
    exact none target (found ▸ renames)
  · intro none target renames
    exact none node ⟨target, live, renames⟩

theorem isDefined_rebuilt (fit : Fit simplifier session) (modest : simplifier.Modest)
    (orderly : session.graph.Orderly session.supply.next) (levels : List (List Nat))
    (defined : session.graph.isDefined symbol = true) :
    (session.rebuilt levels).graph.isDefined symbol = true ↔ ¬Discards session symbol := by
  have isModest : session.graph.relink.simplifier.Modest := fit.simplifier_eq ▸ modest
  by_cases optimize : session.graph.settings.optimize = true
  · refine (isDefined_optimized orderly.relink isModest optimize
      (fit.valid.toLawful.defined_issued defined) defined).trans (not_congr ?_)
    exact (and_iff_right optimize).symm
  · have same : (session.rebuilt levels).graph.isDefined symbol = session.graph.isDefined symbol := by
      rw [Session.rebuilt, optimized, if_neg (show ¬session.graph.relink.settings.optimize = true
        from optimize)]
      rfl
    rw [same]
    exact ⟨fun _ discards => optimize discards.1, fun _ => defined⟩

theorem alias_rebuilt (fit : Fit simplifier session) (modest : simplifier.Modest)
    (orderly : session.graph.Orderly session.supply.next) (levels : List (List Nat))
    (defined : session.graph.isDefined symbol = true) (discards : Discards session symbol) :
    (session.rebuilt levels).graph.isDefined symbol = false ∧
      ∃ last, (session.rebuilt levels).graph.aliases.find? symbol = some (.ofSymbol last) ∧
        ((session.rebuilt levels).graph.isDefined last = true ∨
          (session.rebuilt levels).graph.isInput last = true) := by
  have gone : ¬(session.rebuilt levels).graph.isDefined symbol = true :=
    fun remains => (isDefined_rebuilt fit modest orderly levels defined).mp remains discards
  have improved := optimized_improved orderly.relink (fit.simplifier_eq ▸ modest)
  rcases improved.kept symbol (fit.valid.toLawful.defined_issued defined) defined with
    remains | known
  · exact absurd remains gone
  · exact ⟨Bool.not_eq_true _ ▸ gone, known⟩

def Command.Conserves : Command κ → Prop
  | .build | .reduce _ => False
  | _ => True

theorem Leads.nodeOf? (leads : Leads (fun _ command => command.Conserves) first later)
    (tame : simplifier.Tame) (reachable : Reachable simplifier first) {node : Node κ}
    (found : first.graph.nodeOf? symbol = some node) :
    later.graph.nodeOf? symbol = some node := by
  induction leads with
  | start => exact found
  | @step session command earlier admissible conserves ih =>
      have fit := (earlier.reachable reachable).fit tame
      have outcome := fit.outcome tame.toModest command admissible.issued
      generalize command.apply session = after at outcome
      cases outcome with
      | changed changes =>
          exact changes.invariant fit (fun change fit found => change.nodeOf? fit found) ih
      | built => exact conserves.elim
      | reduced => exact conserves.elim

theorem registered_define {name : String} {value : Tensor κ} {categories : CategorySet}
    (lawful : session.graph.Lawful session.supply.next)
    (defined : (define name value categories).perform session = (.ok symbol, later)) :
    ∃ node, later.graph.Registered name symbol value categories node := by
  rw [define, perform_bind, perform_freshSymbol] at defined
  simp only at defined
  have same : (session.supply.fresh name value.shape).1 = symbol := by
    rw [perform_register] at defined
    split at defined <;> cases defined
    rfl
  subst same
  have fresh : session.graph.isDefined (session.supply.fresh name value.shape).1 = false := by
    rw [← Bool.not_eq_true]
    intro known
    exact lt_irrefl _ (lawful.defined_issued known)
  obtain ⟨added, _⟩ := addEquation_of_register defined
  exact (registered_addEquation lawful fresh added).2.2

/-- All commands but reductions. -/
def Command.Spares : Command κ → Prop
  | .reduce _ => False
  | _ => True

/-- The symbol is defined, or known as an alias. -/
def Retains (graph : Graph κ) (symbol : Symbol) : Prop :=
  graph.isDefined symbol = true ∨ graph.aliases.find? symbol ≠ none

theorem Change.retains {before after : Session κ} (change : Change before after)
    (fit : Fit simplifier before) (retains : before.graph.Retains symbol) :
    after.graph.Retains symbol := by
  rcases retains with defined | known
  · obtain ⟨node, found⟩ := isDefined_iff.mp defined
    exact Or.inl (isDefined_iff.mpr ⟨node, change.nodeOf? fit found⟩)
  cases change with
  | issue | relink => exact Or.inr known
  | input _ added => rcases addInput_ok added with rfl | ⟨_, rfl⟩ <;> exact Or.inr known
  | bind bound =>
      obtain ⟨_, rfl⟩ := bindInput_ok bound
      exact Or.inr known
  | evaluate evaluates =>
      cases evaluates with
      | refresh => exact Or.inr known
  | @define name other value categories graph _ _ added =>
      cases undefined : before.graph.isDefined other with
      | true =>
          rcases addEquation_ok added with ⟨_, rfl⟩ | ⟨_, _, _, fresh, rfl⟩
          · exact Or.inr known
          · rw [undefined] at fresh
            cases fresh
      | false =>
          obtain ⟨node, found⟩ : ∃ node, graph.nodeOf? other = some node :=
            ⟨_, nodeOf?_addEquation fit.valid.toLawful undefined added⟩
          by_cases here : other = symbol
          · exact Or.inl (isDefined_iff.mpr ⟨node, here ▸ found⟩)
          · rcases addEquation_ok added with ⟨_, rfl⟩ | ⟨_, _, _, _, rfl⟩
            · exact Or.inr known
            · refine Or.inr ?_
              change (before.graph.aliases.erase other).find? symbol ≠ none
              rwa [Table.find?_erase, if_neg here]

theorem Fit.retains (fit : Fit simplifier session) (modest : simplifier.Modest) {command : Command κ}
    (commandIssued : command.Issued session.supply) (spares : command.Spares)
    (issued : symbol.number < session.supply.next) (retains : session.graph.Retains symbol) :
    (command.apply session).graph.Retains symbol := by
  have outcome := fit.outcome modest command commandIssued
  generalize command.apply session = later at outcome
  cases outcome with
  | changed changes => exact changes.invariant fit Change.retains retains
  | built orderly _ =>
      have improved := optimized_improved orderly.relink (fit.simplifier_eq ▸ modest)
      cases defined : session.graph.isDefined symbol with
      | true =>
          refine (improved.kept symbol issued defined).imp_right fun ⟨last, known, _⟩ => ?_
          exact Option.ne_none_iff_exists'.mpr ⟨_, known⟩
      | false =>
          have known := retains.resolve_left (by rw [defined]; exact Bool.false_ne_true)
          exact Or.inr ((improved.old symbol issued defined).trans_ne known)
  | reduced => exact spares.elim

theorem Leads.retains (leads : Leads (fun _ command => command.Spares) first later)
    (tame : simplifier.Tame) (reachable : Reachable simplifier first)
    (issued : symbol.number < first.supply.next) (retains : first.graph.Retains symbol) :
    later.graph.Retains symbol := by
  induction leads with
  | start => exact retains
  | step command earlier admissible spares ih =>
      exact ((earlier.reachable reachable).fit tame).retains tame.toModest admissible.issued spares
        (issued.trans_le (earlier.supply_le tame reachable)) ih

end Mechanism.Graph
