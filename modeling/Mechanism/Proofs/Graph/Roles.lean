import Mechanism.Proofs.Graph.Definitions

/-!
Every symbol has one role: it is live, or an input, or an alias that a build has left. Nothing but
the declaration of an alias as an input gives a symbol two roles, and a symbol with one role is read
by a new definition as it is answered.
-/

open Relation (ReflTransGen TransGen)

namespace Mechanism.Graph

open Mechanism.Graph.Action

variable {κ : Type} [Scalar κ] {limit : Nat} {graph before after : Graph κ}
  {simplifier : Simplifier κ} {session first later : Session κ} {symbol : Symbol}

def Unclaimed (symbol : Symbol) (graph : Graph κ) : Prop :=
  graph.isInput symbol = true → graph.aliases.find? symbol = none

theorem Unclaimed.of_eq (unclaimed : before.Unclaimed symbol)
    (inputs : after.inputs = before.inputs)
    (aliases : before.aliases.find? symbol = none → after.aliases.find? symbol = none) :
    after.Unclaimed symbol := by
  intro input
  rw [isInput, inputs] at input
  exact aliases (unclaimed input)

theorem Unclaimed.bindInput (unclaimed : graph.Unclaimed symbol) {other : Symbol}
    {value : Tensor κ} (bound : bindInput other value graph = .ok after) :
    after.Unclaimed symbol := by
  obtain ⟨_, rfl⟩ := bindInput_ok bound
  exact unclaimed

theorem Unclaimed.addInput (unclaimed : graph.Unclaimed symbol) {declared : Symbol}
    {categories : CategorySet} (fresh : symbol = declared → graph.aliases.find? symbol = none)
    (added : addInput declared categories graph = .ok after) : after.Unclaimed symbol := by
  rcases addInput_ok added with rfl | ⟨_, rfl⟩
  · exact unclaimed
  · intro input
    rcases isInput_insert.mp input with same | old
    · exact fresh same
    · exact unclaimed old

theorem Unclaimed.addEquation (unclaimed : graph.Unclaimed symbol) {name : String} {other : Symbol}
    {value : Tensor κ} {categories : CategorySet}
    (added : addEquation name other value categories graph = .ok after) :
    after.Unclaimed symbol := by
  rcases addEquation_ok added with ⟨_, rfl⟩ | ⟨_, _, _, _, rfl⟩
  · exact unclaimed
  · refine unclaimed.of_eq rfl fun none => ?_
    refine (Table.find?_erase graph.aliases other symbol).trans ?_
    split
    · rfl
    · exact none

theorem Unclaimed.evaluates (unclaimed : session.graph.Unclaimed symbol)
    (evaluates : ReflTransGen Evaluates session later) : later.graph.Unclaimed symbol := by
  induction evaluates with
  | refl => exact unclaimed
  | tail _ last ih =>
      cases last with
      | refresh => exact ih

theorem Unclaimed.build (unclaimed : session.graph.Unclaimed symbol) (fit : Fit simplifier session)
    (modest : simplifier.Modest) : (build.perform session).2.graph.Unclaimed symbol := by
  have lawful := fit.valid.toLawful
  rcases build_outcome lawful (fit.simplifier_eq ▸ modest) with
    ⟨error, fails | fails⟩ | ⟨orderly, levels, report, _, succeeds⟩
  · rw [fails]
    exact unclaimed
  · rw [fails]
    exact unclaimed
  · rw [succeeds]
    have improved := optimized_improved orderly.relink (fit.simplifier_eq ▸ modest)
    intro input
    have declared : session.graph.isInput symbol = true := by
      rw [isInput, ← show _ = session.graph.inputs from improved.inputs]
      exact input
    refine (improved.old symbol (lawful.inputs declared) (lawful.apart declared)).trans ?_
    exact unclaimed declared

theorem Unclaimed.reduce (unclaimed : graph.Unclaimed symbol) {kept : CategorySet}
    {reduction : Reduction} (reduced : Graph.reduce graph kept = .ok (reduction, after)) :
    after.Unclaimed symbol := by
  obtain ⟨_, indices, _, _, _, rfl⟩ := reduce_eq_ok reduced
  have dropped := foldl_dropNode_dropped indices graph
  exact unclaimed.of_eq dropped.inputs fun none =>
    (congrArg (Table.find? · symbol) dropped.aliases).trans none

/-- The symbol is not declared as an input while it is an alias. -/
def Undisturbed (symbol : Symbol) (session : Session κ) (command : Command κ) : Prop :=
  ∀ categories initial, command = .declareInput symbol categories initial →
    session.graph.aliases.find? symbol = none

theorem Unclaimed.updated (unclaimed : session.graph.Unclaimed symbol)
    {change : Graph κ → Except (GraphError κ) (Graph κ)}
    (keeps : ∀ graph, change session.graph = .ok graph → graph.Unclaimed symbol) :
    ((update change).perform session).2.graph.Unclaimed symbol := by
  rw [perform_update]
  cases changed : change session.graph with
  | error _ => exact unclaimed
  | ok graph => exact keeps graph changed

theorem Unclaimed.declareInput (unclaimed : session.graph.Unclaimed symbol) {declared : Symbol}
    {categories : CategorySet} {initial : Option (Tensor κ)}
    (fresh : symbol = declared → session.graph.aliases.find? symbol = none) :
    ((declareInput declared categories initial).perform session).2.graph.Unclaimed symbol := by
  have added :
      ((update (Graph.addInput declared categories)).perform session).2.graph.Unclaimed symbol :=
    unclaimed.updated fun _ added => unclaimed.addInput fresh added
  unfold Graph.declareInput
  rw [perform_bind]
  rcases outcome : (update (Graph.addInput declared categories)).perform session with ⟨_ | _, later⟩
  · rwa [outcome] at added
  · rw [outcome] at added
    cases initial with
    | none => exact added
    | some value => exact Unclaimed.updated added fun _ bound => Unclaimed.bindInput added bound

theorem Unclaimed.register (unclaimed : session.graph.Unclaimed symbol) (name : String)
    (other : Symbol) (value : Tensor κ) (categories : CategorySet) :
    ((register name other value categories).perform session).2.graph.Unclaimed symbol := by
  rw [perform_register]
  cases added : Graph.addEquation name other value categories session.graph with
  | error _ => exact unclaimed
  | ok graph => exact unclaimed.addEquation added

theorem Unclaimed.apply (unclaimed : session.graph.Unclaimed symbol) (fit : Fit simplifier session)
    (tame : simplifier.Tame) {command : Command κ}
    (undisturbed : Undisturbed symbol session command) :
    (command.apply session).graph.Unclaimed symbol := by
  unfold Command.apply
  cases command with
  | issue => exact unclaimed
  | declareInput declared categories initial =>
      exact unclaimed.declareInput fun same => undisturbed categories initial (by rw [same])
  | register name other value categories =>
      rw [Command.action, perform_ignore]
      exact unclaimed.register name other value categories
  | define name value categories =>
      rw [Command.action, perform_ignore, Graph.define, perform_bind, perform_freshSymbol]
      have issued : ({ session with supply := (session.supply.fresh name value.shape).2 } :
        Session κ).graph.Unclaimed symbol := unclaimed
      exact issued.register name _ value categories
  | bind other value => exact unclaimed.updated fun _ bound => unclaimed.bindInput bound
  | query other =>
      rw [Command.action, perform_ignore]
      exact unclaimed.evaluates (valueOf_evaluates session other)
  | queryNumbers other =>
      rw [Command.action, perform_ignore]
      exact unclaimed.evaluates (numbersOf_evaluates session other)
  | build =>
      rw [Command.action, perform_ignore]
      exact unclaimed.build fit tame.toModest
  | reduce kept =>
      rw [Command.action, perform_ignore, keepOnly, perform_bind, perform_getGraph]
      simp only
      split
      · rename_i reduction graph reduced
        exact unclaimed.reduce reduced
      · exact unclaimed

theorem Unclaimed.leads (unclaimed : first.graph.Unclaimed symbol)
    (reachable : Reachable simplifier first) (tame : simplifier.Tame)
    (run : Leads (Undisturbed symbol) first later) : later.graph.Unclaimed symbol := by
  induction run with
  | start => exact unclaimed
  | step command before _ undisturbed ih =>
      exact ih.apply ((before.reachable reachable).fit tame) tame undisturbed

theorem entryAt_resolveAliases {value : Tensor κ} {index : Nat} {atom : Atom}
    (entry : value.entryAt index = .ok (.atom atom)) :
    (graph.resolveAliases value).entryAt index = .ok (Expr.replacementOf graph.standIn atom) := by
  rw [resolveAliases_eq]
  split
  · rename_i empty
    rw [entry, replacementOf_standIn_none (isEmpty_aliases empty atom.symbol)]
  · exact Tensor.entryAt_substitute.mpr ⟨_, entry, Expr.substitute_atom _ atom⟩

/-- What stands for an atom of a symbol with a value is the entry of the answer for the symbol. -/
theorem replacementOf_current {atom : Atom} {inner : Tensor κ}
    (entry : (Tensor.ofSymbol atom.symbol).entryAt atom.flatIndex = .ok (.atom atom : Expr κ))
    (known : session.graph.Known atom.symbol) (answered : answer session atom.symbol = .ok inner) :
    Expr.replacementOf (current session) atom =
      ((inner.entryAt atom.flatIndex).toOption).getD (.atom atom) := by
  rw [Expr.replacementOf]
  rcases current_of_answer known answered with same | ⟨none, rfl⟩
  · rw [same]
  · rw [none, entry]
    rfl

/-- What a new definition reads for an atom of an available symbol is an atom whose value is the entry
of the answer for the symbol: the atom itself, or what the alias puts there. -/
theorem Available.read_entry {probe : Symbol} {atom : Atom} {value : Tensor κ} {entry : Expr κ}
    (available : Available session probe atom.symbol) (tame : simplifier.Tame)
    (reachable : Reachable simplifier session)
    (undefined : session.graph.isDefined probe = false)
    (noInput : session.graph.isInput probe = false) (bound : atom.flatIndex < atom.symbol.shape.size)
    (here : (Tensor.ofSymbol atom.symbol).entryAt atom.flatIndex = .ok (.atom atom : Expr κ))
    (answered : answer session atom.symbol = .ok value)
    (found : value.entryAt atom.flatIndex = .ok entry) :
    ∃ read, Expr.replacementOf session.graph.standIn atom = .atom read ∧
      session.graph.Sound probe read.symbol ∧
      Expr.replacementOf (current session) read = entry := by
  cases known : session.graph.aliases.find? atom.symbol with
  | none =>
      have sound := available.sound_plain tame reachable undefined noInput known
      refine ⟨atom, replacementOf_standIn_none known, sound, ?_⟩
      rw [replacementOf_current here sound.known answered, found]
      rfl
  | some target =>
      have lawful := (reachable.fit tame).valid.toLawful
      obtain ⟨other, inside, whole, rfl, same⟩ := lawful.replacementOf_standIn known bound
      obtain ⟨sound, inner, inward, given⟩ := available.sound_alias tame reachable known
        (Tensor.mem_symbols.mpr ⟨other, inside, rfl⟩)
      rw [answered, Except.ok.injEq] at given
      subst given
      obtain ⟨original, there, rfl⟩ := Tensor.entryAt_substitute.mp found
      have stands : original = .atom other := by
        rw [← whole]
        simp [Expr.replacementOf, standIn, known, there, Except.toOption]
      subst stands
      have entry : entryOf [(other.symbol, inner)] other =
          (inner.entryAt other.flatIndex).toOption := by
        simp [entryOf]
      refine ⟨other, whole, sound, ?_⟩
      rw [replacementOf_current (same ▸ there) sound.known inward, Expr.substitute_atom,
        Expr.replacementOf, entry]

/-- A definition of another symbol by this one is answered, entry by entry, as this one is. -/
def Mirrored (symbol : Symbol) (session : Session κ) : Prop :=
  ∀ {name : String} {probe : Symbol} {categories : CategorySet} {first : Session κ}
    {value : Tensor κ},
    (Command.register name probe (.ofSymbol symbol) categories : Command κ).Admissible
      session.supply →
    session.graph.isDefined probe = false → ¬TransGen session.graph.Cites probe symbol →
    (register name probe (.ofSymbol symbol) categories).perform session = (.ok probe, first) →
    answer session symbol = .ok value →
    (∀ target, session.graph.aliases.find? symbol = some target →
      ∀ read ∈ target.symbols, session.graph.Known read) →
    ∃ result, answer first probe = .ok result ∧ result.shape = symbol.shape ∧
      ∀ index < symbol.shape.size, ∀ entry, value.entryAt index = .ok entry →
        result.entryAt index = .ok entry

theorem Unclaimed.mirrored (unclaimed : session.graph.Unclaimed symbol) (tame : simplifier.Tame)
    (reachable : Reachable simplifier session) : Mirrored symbol session := by
  intro name probe categories first value admissible undefined independent accepted answered targets
  have valid := (reachable.fit tame).valid
  have available : Available session probe symbol := by
    refine ⟨⟨value, answered⟩, independent, fun target found => ⟨?_, targets target found⟩⟩
    rw [← Bool.not_eq_true]
    intro input
    rw [unclaimed input] at found
    cases found
  have among (part : Symbol) (member : part ∈ (Tensor.ofSymbol symbol : Tensor κ).symbols) :
      part = symbol := by
    obtain ⟨atom, inside, rfl⟩ := Tensor.mem_symbols.mp member
    exact (Tensor.mem_atoms_ofSymbol inside).1
  have defined := defined_of_register tame reachable admissible undefined accepted
    fun part member => among part member ▸ available
  have unchanged (atom : Atom) (sound : session.graph.Sound probe atom.symbol) :
      Expr.replacementOf (current first) atom = Expr.replacementOf (current session) atom := by
    rw [Expr.replacementOf, Expr.replacementOf,
      defined.adds.current_eq valid defined.valid sound.free sound.founded]
  refine ⟨_, defined.answer_eq, ?_, fun index bound entry found => ?_⟩
  · rw [Tensor.shape_substitute, shape_resolveAliases, Tensor.shape_ofSymbol]
  obtain ⟨added, _⟩ := addEquation_of_register accepted
  obtain ⟨_, _, noInput, _⟩ := addEquation_new undefined added
  obtain ⟨atom, here, rfl, rfl⟩ := Tensor.entryAt_ofSymbol (κ := κ) bound
  obtain ⟨read, stands, sound, same⟩ :=
    available.read_entry tame reachable undefined noInput bound here answered found
  refine Tensor.entryAt_substitute.mpr ⟨_, entryAt_resolveAliases here, ?_⟩
  rw [stands, Expr.substitute_atom, unchanged read sound, same]

/-- No two of the tables of a graph, which are live definitions, inputs and aliases, have the
symbol. -/
structure OneRole (symbol : Symbol) (graph : Graph κ) : Prop where
  noInput : graph.isDefined symbol = true → graph.isInput symbol = false
  noAlias : graph.isDefined symbol = true → graph.aliases.find? symbol = none
  unclaimed : graph.isInput symbol = true → graph.aliases.find? symbol = none

theorem Reachable.live_role (tame : simplifier.Tame) (reachable : Reachable simplifier session)
    (defined : session.graph.isDefined symbol = true) :
    session.graph.isInput symbol = false ∧ session.graph.aliases.find? symbol = none := by
  constructor
  · obtain ⟨node, found⟩ := isDefined_iff.mp defined
    exact (reachable.fit tame).valid.toLawful.noInput found
  · rw [Option.eq_none_iff_forall_ne_some]
    intro target known
    have retired := reachable.attainable.retired tame.toModest symbol target known
    exact Bool.false_ne_true (retired.symm.trans defined)

/-- Whatever is done to a graph, a live symbol is neither an input nor an alias. A symbol that is
never declared as an input while it is an alias has one role at most, and as long as its alias leads
to symbols with a value, a new definition reads it as it is answered. -/
theorem one_role {settings : Settings} (tame : simplifier.Tame)
    (made : new settings simplifier = .ok graph) (supply : SymbolSupply) :
    (∀ {session : Session κ}, Reachable simplifier session → ∀ symbol,
      session.graph.isDefined symbol = true →
        session.graph.isInput symbol = false ∧ session.graph.aliases.find? symbol = none) ∧
    ∀ {session : Session κ} {symbol : Symbol},
      Leads (Undisturbed symbol) ⟨graph, supply⟩ session →
        session.graph.OneRole symbol ∧ Mirrored symbol session := by
  refine ⟨fun reachable _ => reachable.live_role tame, fun {session symbol} run => ?_⟩
  have start : Reachable simplifier ⟨graph, supply⟩ := Reachable.start supply made
  have reachable := run.reachable start
  have new : graph.Unclaimed symbol := by
    rw [new_ok made]
    exact fun _ => rfl
  have unclaimed := Unclaimed.leads new start tame run
  exact ⟨⟨fun defined => (reachable.live_role tame defined).1,
    fun defined => (reachable.live_role tame defined).2, unclaimed⟩,
    unclaimed.mirrored tame reachable⟩

namespace Chained

def s : Symbol := ⟨4, "s", .scalar, .real⟩

/-- The build has left `m` as an alias of `x`. -/
noncomputable def probed : Session RealNumber := (Command.issue "s" .scalar .real).apply built

theorem leads_probed :
    Leads (Undisturbed m) ⟨ofSettings .standard Simplifier.keep, ⟨4⟩⟩ probed := by
  refine Leads.step _ (Leads.step .build (Leads.step _ (Leads.step _ (Leads.step _ Leads.start
    ?_ ?_) ?_ nofun) ?_ nofun) trivial nofun) trivial nofun
  · exact (by decide : 1 < 4)
  · intro categories initial same
    cases same
  · exact ⟨(by decide : 2 < 4), Tensor.regular_ofSymbol (by decide : 1 < 4)⟩
  · exact ⟨(by decide : 3 < 4), Tensor.regular_ofSymbol (by decide : 2 < 4)⟩

end Chained

theorem one_role_chained : (Chained.probed.graph.aliases.find? Chained.m).isSome = true ∧
    Chained.probed.graph.OneRole Chained.m ∧ ∃ first value result entry,
      (register "s" Chained.s (.ofSymbol Chained.m) (.only .sensor)).perform Chained.probed =
        (.ok Chained.s, first) ∧
      answer Chained.probed Chained.m = .ok value ∧ value.entryAt 0 = .ok entry ∧
      answer first Chained.s = .ok result ∧ result.entryAt 0 = .ok entry := by
  obtain ⟨role, mirrored⟩ := (one_role Simplifier.keep_tame new_standard ⟨4⟩).2 Chained.leads_probed
  refine ⟨by with_unfolding_all decide, role, ?_⟩
  obtain ⟨first, outcome⟩ : ∃ first, (register "s" Chained.s (.ofSymbol Chained.m)
      (.only .sensor)).perform Chained.probed = (.ok Chained.s, first) :=
    perform_eq_ok (by with_unfolding_all decide)
  have shown : (((answer Chained.probed Chained.m).toOption).bind fun value =>
      (value.entryAt 0).toOption).isSome = true := by with_unfolding_all decide
  obtain ⟨entry, given⟩ := Option.isSome_iff_exists.mp shown
  obtain ⟨value, answered, found⟩ := Option.bind_eq_some_iff.mp given
  rw [toOption_eq_some] at answered found
  have targets : (Chained.probed.graph.aliases.find? Chained.m).all (fun target =>
      target.symbols.all fun read => Chained.probed.graph.isInput read) = true := by
    with_unfolding_all decide
  have lawful := (Chained.reachable_built.fit Simplifier.keep_tame).valid.toLawful
  obtain ⟨result, read, _, entries⟩ := mirrored
    ⟨by with_unfolding_all decide, Tensor.regular_ofSymbol (by with_unfolding_all decide)⟩
    (by with_unfolding_all decide) (lawful.not_cites (by with_unfolding_all decide) Chained.m)
    outcome answered fun target known => by
      rw [known, Option.all_some] at targets
      exact fun read among => Or.inl (List.all_eq_true.mp targets read among)
  exact ⟨first, value, result, entry, outcome, answered, found, read,
    entries 0 Nat.zero_lt_one entry found⟩

namespace Claimed

def x : Symbol := ⟨1, "x", .scalar, .real⟩

def a : Symbol := ⟨2, "a", .scalar, .real⟩

def s : Symbol := ⟨3, "s", .scalar, .real⟩

/-- The build has left `a` as an alias of the input `x`. -/
noncomputable def built : Session RealNumber :=
  Command.build.apply
    ((Command.register "a" a (.ofSymbol x) (.only .variable)).apply
      ((Command.declareInput x (.only .parameter) none).apply
        ⟨ofSettings .standard Simplifier.keep, ⟨4⟩⟩))

noncomputable def claimed : Session RealNumber :=
  (Command.declareInput a (.only .parameter) none).apply built

noncomputable def read : Session RealNumber :=
  (Command.register "s" s (.ofSymbol a) (.only .sensor)).apply claimed

theorem reachable : Reachable Simplifier.keep claimed := by
  refine Reachable.step _ (Reachable.step .build (Reachable.step _ (Reachable.step _
    (Reachable.start ⟨4⟩ new_standard) ?_) ?_) trivial) ?_
  · exact (by decide : 1 < 4)
  · exact ⟨(by decide : 2 < 4), Tensor.regular_ofSymbol (by decide : 1 < 4)⟩
  · exact (by with_unfolding_all decide : 2 < built.supply.next)

end Claimed

/-- An alias that is declared as an input has two roles: it is answered as the input that it is, and
a new definition reads what the alias stands for. -/
theorem declared_alias_split : Reachable Simplifier.keep Claimed.claimed ∧
    Claimed.claimed.graph.isInput Claimed.a = true ∧
    (Claimed.claimed.graph.aliases.find? Claimed.a).isSome = true ∧
    (answersOf Claimed.read Claimed.a).map Tensor.symbols = some [Claimed.a] ∧
    (answersOf Claimed.read Claimed.s).map Tensor.symbols = some [Claimed.x] := by
  refine ⟨Claimed.reachable, ?_, ?_, ?_, ?_⟩
  all_goals with_unfolding_all decide

end Mechanism.Graph
