import Mechanism.Proofs.Graph.Answers

/-!
Which symbols can be asked for: inputs, live symbols, and removed ones that are aliases of such,
directly or through other removed ones. The fuel of a query is enough for every chain of aliases.

Builds keep the meaning of a graph. Whatever could be asked for can still be asked for, and has the
value that it had before.
-/

namespace Mechanism

theorem Tensor.symbols_ofSymbol {κ : Type} [Scalar κ] (symbol : Symbol) :
    (ofSymbol symbol : Tensor κ).symbols = [] ∨ (ofSymbol symbol : Tensor κ).symbols = [symbol] := by
  have only : ∀ other ∈ (ofSymbol symbol : Tensor κ).symbols, other = symbol := by
    intro other member
    obtain ⟨atom, among, rfl⟩ := mem_symbols.mp member
    exact (mem_atoms_ofSymbol among).1
  have unique : (ofSymbol symbol : Tensor κ).symbols.Nodup := Grouping.nodup_distinct _
  rcases same : (ofSymbol symbol : Tensor κ).symbols with _ | ⟨first, _ | ⟨second, rest⟩⟩
  · exact Or.inl rfl
  · rw [same] at only
    rw [only first List.mem_cons_self]
    exact Or.inr rfl
  · rw [same] at only unique
    have equal := (only first (by simp)).trans (only second (by simp)).symm
    rw [equal] at unique
    simp at unique

namespace Graph

open Mechanism.Graph.Action

variable {κ : Type} [Scalar κ] {limit : Nat} {graph : Graph κ}

def onward (graph : Graph κ) (symbol : Symbol) : Option Symbol :=
  if graph.isInput symbol || graph.isDefined symbol then none
  else (graph.aliases.find? symbol).bind fun target => target.symbols.head?

/-- A symbol with a value of its own, or an alias of which nothing has to be known. -/
def Ends (graph : Graph κ) (symbol : Symbol) : Prop :=
  graph.isInput symbol = true ∨ graph.isDefined symbol = true ∨
    ∃ target, graph.aliases.find? symbol = some target ∧ target.symbols = []

def Resolves (graph : Graph κ) (symbol : Symbol) : Prop :=
  ∃ count last, Search.Path graph.onward count symbol last ∧ graph.Ends last

theorem onward_known {symbol : Symbol}
    (known : graph.isInput symbol = true ∨ graph.isDefined symbol = true) :
    graph.onward symbol = none := by
  rw [onward, if_pos (by simpa using known)]

theorem onward_alias {symbol : Symbol} (noInput : graph.isInput symbol = false)
    (undefined : graph.isDefined symbol = false) {target : Tensor κ}
    (found : graph.aliases.find? symbol = some target) :
    graph.onward symbol = target.symbols.head? := by
  rw [onward, noInput, undefined, if_neg (by decide), found, Option.bind_some]

theorem resolves_known {symbol : Symbol}
    (known : graph.isInput symbol = true ∨ graph.isDefined symbol = true) :
    graph.Resolves symbol :=
  ⟨0, symbol, Search.Path.stop (onward_known known), known.imp_right Or.inl⟩

theorem onward_eq_some {symbol other : Symbol} (lawful : graph.Lawful limit)
    (next : graph.onward symbol = some other) :
    graph.isInput symbol = false ∧ graph.isDefined symbol = false ∧
      graph.aliases.find? symbol = some (.ofSymbol other) ∧
        (Tensor.ofSymbol other : Tensor κ).symbols = [other] := by
  unfold onward at next
  split at next
  · cases next
  rename_i unknown
  rw [Bool.or_eq_true, not_or, Bool.not_eq_true, Bool.not_eq_true] at unknown
  obtain ⟨target, found, head⟩ := Option.bind_eq_some_iff.mp next
  obtain ⟨stood, stands⟩ := lawful.aliases found
  rw [stands.target_eq] at head found
  rcases Tensor.symbols_ofSymbol (κ := κ) stood with none | single
  · rw [none] at head
    cases head
  · rw [single] at head
    cases head
    exact ⟨unknown.1, unknown.2, found, single⟩

theorem resolves_alias {symbol other : Symbol}
    (found : graph.aliases.find? symbol = some (.ofSymbol other))
    (resolves : graph.Resolves other) : graph.Resolves symbol := by
  by_cases known : graph.isInput symbol = true ∨ graph.isDefined symbol = true
  · exact resolves_known known
  rw [not_or, Bool.not_eq_true, Bool.not_eq_true] at known
  have next := onward_alias known.1 known.2 found
  rcases Tensor.symbols_ofSymbol (κ := κ) other with none | single
  · rw [none] at next
    exact ⟨0, symbol, Search.Path.stop next, Or.inr (Or.inr ⟨_, found, none⟩)⟩
  · rw [single] at next
    obtain ⟨count, last, path, ends⟩ := resolves
    exact ⟨count + 1, last, Search.Path.step next path, ends⟩

theorem length_le_aliases {count : Nat} {first last : Symbol}
    (path : Search.Path graph.onward count first last) : count ≤ graph.aliases.size := by
  have inside : ∀ symbol, graph.onward symbol ≠ none → symbol ∈ graph.aliases.keys := by
    intro symbol goes
    rw [Table.mem_keys]
    intro missing
    apply goes
    rw [onward, missing]
    split <;> rfl
  have short := path.le_length inside
  rwa [Table.keys, List.length_map] at short

variable {session : Session κ}

theorem resolves_of_ok {fuel : Nat} (valid : session.graph.Valid limit) {symbol : Symbol}
    {value : Tensor κ} (answered : ((valueWith fuel symbol).perform session).1 = .ok value) :
    session.graph.Resolves symbol := by
  induction fuel generalizing symbol value with
  | zero => cases answered
  | succ fuel ih =>
      by_cases known : session.graph.isInput symbol = true ∨ session.graph.isDefined symbol = true
      · exact resolves_known known
      rw [not_or, Bool.not_eq_true, Bool.not_eq_true] at known
      have undefined : session.graph.liveIndex? symbol = none := by simpa [isDefined] using known.2
      cases found : session.graph.aliases.find? symbol with
      | none =>
          rw [perform_valueWith_unknown fuel known.1 undefined found] at answered
          cases answered
      | some target =>
          obtain ⟨other, stands⟩ := valid.aliases found
          rw [stands.target_eq] at found
          rcases Tensor.symbols_ofSymbol (κ := κ) other with none | single
          · have next := onward_alias known.1 known.2 found
            rw [none] at next
            exact ⟨0, symbol, Search.Path.stop next, Or.inr (Or.inr ⟨_, found, none⟩)⟩
          · rw [perform_valueWith_renamed fuel known.1 undefined found single] at answered
            rcases inner : (valueWith fuel other).perform session with ⟨error | part, later⟩
            · rw [inner] at answered
              cases answered
            · exact resolves_alias found (ih (congrArg Prod.fst inner))

theorem ok_of_path (valid : session.graph.Valid limit) (acyclic : session.graph.Acyclic)
    {count : Nat} {symbol last : Symbol} (path : Search.Path session.graph.onward count symbol last)
    (ends : session.graph.Ends last) {fuel : Nat} (enough : count < fuel) :
    ∃ value, ((valueWith fuel symbol).perform session).1 = .ok value := by
  induction path generalizing fuel with
  | @stop symbol final =>
      cases fuel with
      | zero => omega
      | succ fuel =>
          cases input : session.graph.isInput symbol with
          | true => exact ⟨_, congrArg Prod.fst (perform_valueWith_input fuel input)⟩
          | false =>
              cases defined : session.graph.isDefined symbol with
              | true =>
                  obtain ⟨index, live⟩ := Option.isSome_iff_exists.mp defined
                  obtain ⟨_, value, _, _, _, answered⟩ :=
                    answer_defined valid defined (acyclic.below symbol)
                  rw [answer, perform_valueOf, perform_valueWith_defined _ input live] at answered
                  exact ⟨value, by rw [perform_valueWith_defined fuel input live, answered]⟩
              | false =>
                  have undefined : session.graph.liveIndex? symbol = none := by
                    simpa [isDefined] using defined
                  rcases ends with isInput | isDefined | ⟨target, found, none⟩
                  · rw [input] at isInput
                    cases isInput
                  · rw [defined] at isDefined
                    cases isDefined
                  · rw [perform_valueWith_blank fuel input undefined found none]
                    exact ⟨_, rfl⟩
  | @step count symbol other last next _ ih =>
      cases fuel with
      | zero => omega
      | succ fuel =>
          obtain ⟨noInput, notDefined, found, single⟩ := onward_eq_some valid.toLawful next
          have undefined : session.graph.liveIndex? symbol = none := by
            simpa [isDefined] using notDefined
          obtain ⟨value, inner⟩ := ih ends (Nat.lt_of_succ_lt_succ enough)
          rw [perform_valueWith_renamed fuel noInput undefined found single]
          rcases same : (valueWith fuel other).perform session with ⟨error | part, later⟩
          · rw [same] at inner
            cases inner
          · exact ⟨_, rfl⟩

theorem answer_ok_of_resolves (valid : session.graph.Valid limit) (acyclic : session.graph.Acyclic)
    {symbol : Symbol} (resolves : session.graph.Resolves symbol) :
    ∃ value, answer session symbol = .ok value := by
  obtain ⟨count, last, path, ends⟩ := resolves
  rw [answer, perform_valueOf]
  exact ok_of_path valid acyclic path ends (Nat.lt_succ_of_le (length_le_aliases path))

theorem resolves_of_answer (valid : session.graph.Valid limit) {symbol : Symbol} {value : Tensor κ}
    (answered : answer session symbol = .ok value) : session.graph.Resolves symbol := by
  rw [answer, perform_valueOf] at answered
  exact resolves_of_ok valid answered

end Graph

namespace Graph

open Mechanism.Graph.Action

variable {κ : Type} [Scalar κ] {limit more : Nat} {before after : Graph κ}

theorem Improved.resolves_known (improved : Improved limit more before after) {symbol : Symbol}
    (issued : symbol.number < limit)
    (known : before.isInput symbol = true ∨ before.isDefined symbol = true) :
    after.Resolves symbol := by
  rcases known with input | defined
  · exact Graph.resolves_known (Or.inl (by rwa [isInput, improved.inputs]))
  · rcases improved.kept symbol issued defined with still | ⟨last, found, known⟩
    · exact Graph.resolves_known (Or.inr still)
    · exact resolves_alias found (Graph.resolves_known known.symm)

theorem Improved.unknown (improved : Improved limit more before after) {symbol : Symbol}
    (issued : symbol.number < limit) (noInput : before.isInput symbol = false)
    (undefined : before.isDefined symbol = false) :
    after.isInput symbol = false ∧ after.isDefined symbol = false ∧
      after.aliases.find? symbol = before.aliases.find? symbol := by
  refine ⟨by rwa [isInput, improved.inputs], ?_, improved.old symbol issued undefined⟩
  rw [← Bool.not_eq_true]
  intro defined
  rw [improved.defined symbol issued defined] at undefined
  cases undefined

theorem Improved.resolves (improved : Improved limit more before after)
    (lawful : before.Lawful limit) {symbol : Symbol} (resolves : before.Resolves symbol) :
    symbol.number < limit ∧ after.Resolves symbol := by
  obtain ⟨count, last, path, ends⟩ := resolves
  induction path with
  | @stop symbol _ =>
      by_cases known : before.isInput symbol = true ∨ before.isDefined symbol = true
      · have issued : symbol.number < limit :=
          known.elim (fun input => lawful.inputs input) fun defined => lawful.defined_issued defined
        exact ⟨issued, improved.resolves_known issued known⟩
      · rcases ends with input | defined | ⟨target, found, none⟩
        · exact absurd (Or.inl input) known
        · exact absurd (Or.inr defined) known
        · obtain ⟨other, stands⟩ := lawful.aliases found
          rw [not_or, Bool.not_eq_true, Bool.not_eq_true] at known
          obtain ⟨noInput, undefined, same⟩ :=
            improved.unknown stands.issued.1 known.1 known.2
          have final := onward_alias noInput undefined (same.trans found)
          rw [none] at final
          exact ⟨stands.issued.1, 0, symbol, Search.Path.stop final,
            Or.inr (Or.inr ⟨target, same.trans found, none⟩)⟩
  | @step count symbol other last next _ ih =>
      obtain ⟨noInput, undefined, found, _⟩ := onward_eq_some lawful next
      obtain ⟨_, stands⟩ := lawful.aliases found
      obtain ⟨_, _, same⟩ := improved.unknown stands.issued.1 noInput undefined
      exact ⟨stands.issued.1, resolves_alias (same.trans found) (ih ends).2⟩

theorem refines_of_same [Exact κ] (kept : Symbol → Prop)
    (inputs : ∀ symbol, after.isInput symbol = before.isInput symbol)
    (contents : ∀ symbol, after.content? symbol = before.content? symbol) :
    Refines kept before after := by
  apply Refines.of_solves
  intro values environment solves
  constructor
  · intro symbol index input
    exact solves.input index (by rwa [inputs])
  · intro symbol index value tensor noInput found
    exact solves.content (by rwa [inputs]) (by rwa [contents])

theorem optimized_finished_refines [Exact κ] {graph : Graph κ} {supply : SymbolSupply}
    (orderly : graph.Orderly supply.next) (placed : graph.Placed) (tame : graph.simplifier.Tame)
    (preserves : graph.simplifier.Preserves) (levels : List (List Nat)) :
    Refines (fun symbol => symbol.number < supply.next) graph
      ((graph.relink.optimized supply).graph.finished levels) := by
  have relinked : graph.relink.Placed := placed.of_node? fun _ => rfl
  have passes := optimized_refines orderly.relink relinked tame preserves
  generalize (graph.relink.optimized supply).graph = optimized at passes
  exact ((refines_relink _ graph).trans passes).trans
    (refines_of_same _ (fun _ => rfl) fun _ => rfl)

/-- After a successful build every symbol that could be asked for can be asked for, and its entries
have the values that they had by unfolding the definitions down to the inputs. -/
theorem build_preserves [Exact κ] {simplifier : Simplifier κ} {session later : Session κ}
    {report : BuildReport} (tame : simplifier.Tame) (preserves : simplifier.Preserves)
    (reachable : Reachable simplifier session) (built : build.perform session = (.ok report, later))
    {symbol : Symbol} {value : Tensor κ} (asked : answer session symbol = .ok value) :
    (∃ value, answer later symbol = .ok value) ∧
      ∀ (inputs : Symbol → Nat → ℝ) (index : Nat) (number : ℝ),
        session.graph.Unfolds inputs symbol index number →
          later.graph.Unfolds inputs symbol index number := by
  have placed := reachable.placed tame
  obtain ⟨valid, rfl⟩ := reachable.fit tame
  rcases build_outcome valid.toLawful tame.toModest with
    ⟨error, fails | fails⟩ | ⟨orderly, levels, _, found, succeeds⟩
  · rw [fails] at built
    cases built
  · rw [fails] at built
    cases built
  rw [succeeds] at built
  cases built
  have improved := optimized_improved orderly.relink tame.toModest
  obtain ⟨issued, resolves⟩ := improved.resolves orderly.relink.toLawful
    (show session.graph.relink.Resolves symbol from resolves_of_answer valid asked)
  constructor
  · exact answer_ok_of_resolves (valid.finished_optimized orderly tame.toModest found)
      improved.acyclic resolves
  · intro inputs index number unfolds
    exact (optimized_finished_refines orderly placed tame preserves levels).unfolds issued unfolds

theorem build_preserves_chained : ∃ report later,
    build.perform Chained.registered = (.ok report, later) ∧
      later.graph.isDefined Chained.m = false ∧ (∃ value, answer later Chained.m = .ok value) ∧
        ∀ inputs : Symbol → Nat → ℝ,
          later.graph.Unfolds inputs Chained.m 0 (inputs Chained.x 0) := by
  have finished : (build.perform Chained.registered).1.toOption.isSome = true := by
    with_unfolding_all decide
  have removed : (build.perform Chained.registered).2.graph.isDefined Chained.m = false := by
    with_unfolding_all decide
  have answered : (answer Chained.registered Chained.m).toOption.isSome = true := by
    with_unfolding_all decide
  have unfolds : ∀ inputs : Symbol → Nat → ℝ,
      Chained.registered.graph.Unfolds inputs Chained.m 0 (inputs Chained.x 0) := by
    intro inputs
    refine Unfolds.content (by decide) (show Chained.registered.graph.content? Chained.m =
      some (.ofSymbol Chained.x) from rfl)
      (fun other position => if other = Chained.x then some (inputs other position) else none) ?_ ?_
    · intro other position number known
      split at known
      · rename_i same
        cases known
        exact Unfolds.input (same ▸ by decide)
      · cases known
    · exact Tensor.meansAt_ofSymbol.mpr ⟨by decide, if_pos rfl⟩
  rcases built : build.perform Chained.registered with ⟨error | report, later⟩
  · rw [built] at finished
    cases finished
  · cases asked : answer Chained.registered Chained.m with
    | error reason =>
        rw [asked] at answered
        cases answered
    | ok value =>
        obtain ⟨again, keeps⟩ := build_preserves Simplifier.keep_tame Simplifier.keep_preserves
          Chained.reachable built asked
        rw [built] at removed
        exact ⟨report, later, rfl, removed, again, fun inputs => keeps inputs 0 _ (unfolds inputs)⟩

end Graph

end Mechanism
