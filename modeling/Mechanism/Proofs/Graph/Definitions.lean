import Mechanism.Proofs.Graph.Aliases
import Mechanism.Proofs.Graph.Buildability
import Mechanism.Proofs.Graph.Extraction
import Mechanism.Proofs.Graph.Redefinition

/-!
What a new definition means. Its symbol has the value of the right-hand side in which every symbol
stands for the answer that it had before the registration. Aliases may be used as long as they lead
to symbols that have a value themselves; one whose target was removed by a later build does not.
-/

open Relation (ReflTransGen TransGen)

namespace Mechanism.Graph

open Mechanism.Graph.Action

variable {κ : Type} [Scalar κ] {limit : Nat} {simplifier : Simplifier κ}
  {session first later : Session κ} {name : String} {symbol part read : Symbol} {value : Tensor κ}
  {categories : CategorySet}

theorem Sound.seen_eq {more : Nat} (sound : session.graph.Sound symbol read)
    (adds : Adds symbol session.graph later.graph) (valid : session.graph.Valid limit)
    (laterValid : later.graph.Valid more) : seen later read = seen session read := by
  apply Tensor.substitute_congr
  intro atom member
  obtain ⟨rfl, _⟩ := Tensor.mem_atoms_ofSymbol member
  exact adds.current_eq valid laterValid sound.free sound.founded

/-- Every symbol with its answer. -/
def answersOf (session : Session κ) (symbol : Symbol) : Option (Tensor κ) :=
  (answer session symbol).toOption

theorem meansAt_resolved [Exact κ] (tame : simplifier.Tame)
    (reachable : Reachable simplifier session) (regular : value.Regular session.supply.next)
    (undefined : session.graph.isDefined symbol = false)
    (noInput : session.graph.isInput symbol = false)
    (available : ∀ part ∈ value.symbols, Available session symbol part)
    {environment : Environment} {index : Nat} {number : ℝ}
    (means : value.MeansAt (environment.through (answersOf session)) index number) :
    (session.graph.resolveAliases value).MeansAt
      (environment.through fun symbol => some (seen session symbol)) index number := by
  have lawful := (reachable.fit tame).valid.toLawful
  refine lawful.meansAt_resolveAliases regular means ?_ ?_
  · intro atom member plain number known
    have part := available atom.symbol (Tensor.mem_symbols.mpr ⟨atom, member, rfl⟩)
    obtain ⟨tensor, same, entry, found, means⟩ := Environment.through_eq_some.mp known
    have sound := part.sound_plain tame reachable undefined noInput plain
    obtain ⟨answered, given⟩ := part.answered
    rw [answersOf, given, Except.toOption, Option.some.injEq] at same
    subst same
    refine Environment.through_eq_some.mpr ⟨_, rfl, ?_⟩
    apply meansAt_seen_of_answer (regular.atoms member).within sound.known given
    rwa [found, Except.toOption, Option.getD_some]
  · intro atom member other found inside place number known
    have part := available atom.symbol (Tensor.mem_symbols.mpr ⟨atom, member, rfl⟩)
    obtain ⟨tensor, same, means⟩ := Environment.through_eq_some.mp known
    obtain ⟨sound, inner, answered, given⟩ := part.sound_alias tame reachable found
      (Tensor.mem_symbols.mpr ⟨other, inside, rfl⟩)
    rw [answersOf, given, Except.toOption, Option.some.injEq] at same
    subst same
    refine Environment.through_eq_some.mpr ⟨_, rfl, ?_⟩
    rw [← place] at means
    exact meansAt_seen_of_alias (Tensor.mem_atoms_ofSymbol inside).2 sound.known answered means

/-- What is known of a symbol that has just been defined. -/
structure Defined (name : String) (symbol : Symbol) (value : Tensor κ) (categories : CategorySet)
    (session first : Session κ) : Prop where
  valid : first.graph.Valid session.supply.next
  adds : Adds symbol session.graph first.graph
  found : first.graph.nodeOf? symbol = some (Node.ofEquation
    ⟨name, symbol, session.graph.resolveAliases value, categories⟩ value)
  sound : ∀ read ∈ (session.graph.resolveAliases value).symbols, session.graph.Sound symbol read

theorem defined_of_register (tame : simplifier.Tame) (reachable : Reachable simplifier session)
    (admissible : (Command.register name symbol value categories).Admissible session.supply)
    (undefined : session.graph.isDefined symbol = false)
    (accepted : (register name symbol value categories).perform session = (.ok symbol, first))
    (available : ∀ part ∈ value.symbols, Available session symbol part) :
    Defined name symbol value categories session first := by
  have lawful := (reachable.fit tame).valid.toLawful
  have firstValid := ((reachable.register admissible accepted).fit tame).valid
  obtain ⟨added, same⟩ := addEquation_of_register accepted
  rw [same] at firstValid
  obtain ⟨_, _, noInput, _⟩ := addEquation_new undefined added
  refine ⟨firstValid, adds_addEquation lawful undefined added,
    nodeOf?_addEquation lawful undefined added, ?_⟩
  intro read member
  exact sound_resolveAliases tame reachable admissible.2 undefined noInput available member

namespace Defined

variable (defined : Defined name symbol value categories session first)

include defined

theorem acc : Acc first.graph.Reads symbol := by
  constructor
  rintro read ⟨node, found, member, live⟩
  rw [defined.found, Option.some.injEq] at found
  subst found
  have sound := defined.sound read member
  rw [defined.adds.isDefined_eq sound.free.ne] at live
  exact defined.adds.acc (sound.founded live) sound.free

theorem answer_eq : answer first symbol =
    .ok ((session.graph.resolveAliases value).substitute (current first)) :=
  Graph.answer_eq defined.valid defined.found (acyclicBelow_of_acc defined.acc)

theorem known {read : Symbol} (member : read ∈ (session.graph.resolveAliases value).symbols) :
    first.graph.Known read := by
  have sound := defined.sound read member
  refine sound.known.imp (fun input => ?_) fun live => ?_
  · rwa [isInput, defined.adds.inputs]
  · rwa [defined.adds.isDefined_eq sound.free.ne]

theorem meansAt [Exact κ] (valid : session.graph.Valid session.supply.next)
    (regular : value.Regular session.supply.next) {environment : Environment} {index : Nat}
    {number : ℝ} (means : (session.graph.resolveAliases value).MeansAt
      (environment.through fun symbol => some (seen session symbol)) index number) :
    ((session.graph.resolveAliases value).substitute (current first)).MeansAt environment index
      number := by
  have resolved := valid.toLawful.resolveAliases_placed regular.placed
  refine means.substitute fun atom member number known => ?_
  obtain ⟨tensor, same, means⟩ := Environment.through_eq_some.mp known
  cases same
  have sound := defined.sound atom.symbol (Tensor.mem_symbols.mpr ⟨atom, member, rfl⟩)
  rw [← sound.seen_eq defined.adds valid defined.valid] at means
  exact (meansAt_seen (resolved atom member)).mp means

end Defined

/-- Anything but builds and reductions. -/
def Unbuilt (_ : Session κ) (command : Command κ) : Prop :=
  command ≠ .build ∧ ∀ kept, command ≠ .reduce kept

theorem Leads.changes (run : Leads Unbuilt first later) (tame : simplifier.Tame)
    (reachable : Reachable simplifier first) : Changes first later := by
  induction run with
  | start => exact ReflTransGen.refl
  | @step session command before admissible quiet ih =>
      refine ih.trans ?_
      have outcome := ((before.reachable reachable).fit tame).outcome tame.toModest command
        admissible.issued
      generalize command.apply session = next at outcome
      cases outcome with
      | changed changes => exact changes
      | built => exact absurd rfl quiet.1
      | reduced => exact absurd rfl (quiet.2 _)

theorem Change.known (change : Change session later) (fit : Fit simplifier session)
    (known : session.graph.Known read) : later.graph.Known read := by
  refine known.imp (fun input => ?_) fun live => ?_
  · cases change with
    | issue | relink => exact input
    | input _ added =>
        rcases addInput_ok added with rfl | ⟨_, rfl⟩
        · exact input
        · exact isInput_insert.mpr (Or.inr input)
    | bind bound =>
        obtain ⟨_, rfl⟩ := bindInput_ok bound
        exact input
    | evaluate evaluates =>
        cases evaluates with
        | refresh => exact input
    | define _ _ added =>
        rcases addEquation_ok added with ⟨_, rfl⟩ | ⟨_, _, _, _, rfl⟩ <;> exact input
  · obtain ⟨node, found⟩ := isDefined_iff.mp live
    exact isDefined_iff.mpr ⟨node, change.nodeOf? fit found⟩

theorem means_entryIn [Exact κ] {environment : Environment} {number : ℝ}
    {tensors : Symbol → Option (Tensor κ)} {atom : Atom}
    (means : environment.through tensors atom.symbol atom.flatIndex = some number) :
    (Expr.replacementOf (entryIn tensors) atom).Means environment number := by
  obtain ⟨tensor, known, entry, found, means⟩ := Environment.through_eq_some.mp means
  simpa [Expr.replacementOf, entryIn, known, found, Except.toOption] using means

/-- A symbol that is newly defined has the value of the right-hand side in which every symbol has the
value of its former answer, whether it is live or an alias that a build has left, and so has the
right-hand side with the former answers put in it. The next build does not fail because of a symbol
that the new definition reads. -/
theorem register_means [Exact κ] (tame : simplifier.Tame) (reachable : Reachable simplifier session)
    (admissible : (Command.register name symbol value categories).Admissible session.supply)
    (undefined : session.graph.isDefined symbol = false)
    (accepted : (register name symbol value categories).perform session = (.ok symbol, first))
    (available : ∀ part ∈ value.symbols, Available session symbol part) :
    (∃ result, answer first symbol = .ok result ∧ result.shape = symbol.shape ∧
      ∀ (environment : Environment) (index : Nat) (number : ℝ),
        value.MeansAt (environment.through (answersOf session)) index number →
          result.MeansAt environment index number ∧
            (value.substitute (entryIn (answersOf session))).MeansAt environment index number) ∧
    ∀ later, Leads Unbuilt first later → ∀ error last,
      build.perform later = (.error error, last) →
        (∃ cycle, error = later.graph.relink.cycleError cycle) ∨
          ∃ reader node read, later.graph.nodeOf? reader = some node ∧ reader ≠ symbol ∧
            read ∈ node.reads ∧ ¬later.graph.Known read ∧
              error = .unboundSymbol read.name node.equation.name := by
  have valid := (reachable.fit tame).valid
  have defined := defined_of_register tame reachable admissible undefined accepted available
  obtain ⟨added, _⟩ := addEquation_of_register accepted
  obtain ⟨_, shape, noInput, _⟩ := addEquation_new undefined added
  refine ⟨⟨_, defined.answer_eq, shape, fun environment index number means => ⟨?_, ?_⟩⟩, ?_⟩
  · exact defined.meansAt valid admissible.2
      (meansAt_resolved tame reachable admissible.2 undefined noInput available means)
  · exact means.substitute fun atom _ number known => means_entryIn known
  · intro later run error last fails
    have start := reachable.register admissible accepted
    have changes := run.changes tame start
    have fit := start.fit tame
    obtain ⟨laterValid, same⟩ := changes.fit fit
    rcases build_error_cases laterValid.toLawful (same ▸ tame.toModest) fails with unbound | cyclic
    · refine Or.inr ?_
      obtain ⟨reader, node, read, found, member, dead, noValue, rfl⟩ :=
        unbound?_eq_some laterValid.toLawful unbound
      have unknown : ¬later.graph.Known read := by
        rw [Known, dead, noValue, or_self]
        exact Bool.false_ne_true
      refine ⟨reader, node, read, found, ?_, member, unknown, rfl⟩
      rintro rfl
      -- the definition is still there, and what it reads has still a value
      have still := changes.invariant fit (fun change fit found => change.nodeOf? fit found)
        defined.found
      rw [found, Option.some.injEq] at still
      subst still
      exact unknown (changes.invariant fit (fun change fit known => change.known fit known)
        (defined.known member))
    · exact Or.inl cyclic

namespace Chained

def z : Symbol := ⟨4, "z", .vector 2, .real⟩

/-- The pair of the alias `m` and the live symbol `y`. -/
noncomputable def pair : Tensor RealNumber := ⟨.vector 2, [.atom (.whole m), .atom (.whole y)]⟩

noncomputable def issued : Session RealNumber :=
  (Command.issue "z" (.vector 2) .real).apply built

theorem reachable_issued : Reachable Simplifier.keep issued :=
  Reachable.step _ reachable_built trivial

theorem regular_pair : pair.Regular issued.supply.next where
  length_eq := rfl
  entries := by
    intro entry among atom occurs
    have atoms : entry = .atom (.whole m) ∨ entry = .atom (.whole y) := by
      simpa [pair] using among
    rcases atoms with rfl | rfl
    · rw [List.mem_singleton.mp occurs]
      exact ⟨Nat.zero_lt_one, by with_unfolding_all decide⟩
    · rw [List.mem_singleton.mp occurs]
      exact ⟨Nat.zero_lt_one, by with_unfolding_all decide⟩

theorem available_issued : ∀ part ∈ pair.symbols, Available issued z part := by
  have answered : pair.symbols.all (fun part => (answer issued part).toOption.isSome &&
      (issued.graph.aliases.find? part).all fun target => !issued.graph.isInput part &&
        target.symbols.all fun read =>
          issued.graph.isInput read || issued.graph.isDefined read) = true := by
    with_unfolding_all decide
  intro part member
  have facts := List.all_eq_true.mp answered part member
  rw [Bool.and_eq_true] at facts
  refine ⟨?_, ?_, ?_⟩
  · cases given : answer issued part with
    | ok value => exact ⟨value, rfl⟩
    | error _ =>
        rw [given] at facts
        cases facts.1
  · have lawful := (reachable_built.fit Simplifier.keep_tame).valid.toLawful
    exact lawful.not_cites (by with_unfolding_all decide) part
  · intro target found
    have known := facts.2
    rw [found, Option.all_some, Bool.and_eq_true, Bool.not_eq_true'] at known
    refine ⟨known.1, fun read inside => ?_⟩
    simpa [Known] using List.all_eq_true.mp known.2 read inside

theorem answersOf_issued : ∃ tensor number, answersOf issued m = some tensor ∧
    tensor.entryAt 0 = .ok (.num number) := by
  have shown : ((answersOf issued m).bind fun tensor =>
      (tensor.entryAt 0).toOption.bind Expr.asNumber?).isSome = true := by with_unfolding_all decide
  obtain ⟨number, same⟩ := Option.isSome_iff_exists.mp shown
  obtain ⟨tensor, answered, same⟩ := Option.bind_eq_some_iff.mp same
  obtain ⟨entry, found, same⟩ := Option.bind_eq_some_iff.mp same
  cases given : tensor.entryAt 0 with
  | error _ =>
      rw [given] at found
      cases found
  | ok other =>
      rw [given] at found
      cases found
      cases entry with
      | num number => exact ⟨tensor, number, answered, given⟩
      | _ => cases same

theorem meansAt_pair {tensor : Tensor RealNumber} {number : RealNumber}
    (answered : answersOf issued m = some tensor) (entry : tensor.entryAt 0 = .ok (.num number))
    (environment : Environment) :
    pair.MeansAt (environment.through (answersOf issued)) 0 number.value := by
  refine ⟨.atom (.whole m), rfl, (Expr.means_atom _ _).mpr ?_⟩
  exact Environment.through_eq_some.mpr
    ⟨tensor, answered, .num number, entry, (Expr.means_num _ _).mpr rfl⟩

end Chained

theorem register_means_chained : Chained.issued.graph.isDefined Chained.m = false ∧
    ∃ first result tensor number,
      (register "z" Chained.z Chained.pair (.only .sensor)).perform Chained.issued =
        (.ok Chained.z, first) ∧
      answersOf Chained.issued Chained.m = some tensor ∧ tensor.entryAt 0 = .ok (.num number) ∧
      answer first Chained.z = .ok result ∧
      ∀ environment, result.MeansAt environment 0 number.value := by
  have succeeds : ((register "z" Chained.z Chained.pair (.only .sensor)).perform
      Chained.issued).1.toOption = some Chained.z := by with_unfolding_all decide
  obtain ⟨tensor, number, answered, entry⟩ := Chained.answersOf_issued
  rcases outcome : (register "z" Chained.z Chained.pair (.only .sensor)).perform Chained.issued with
    ⟨error | symbol, first⟩
  · rw [outcome] at succeeds
    cases succeeds
  · rw [outcome] at succeeds
    cases succeeds
    obtain ⟨⟨result, given, _, means⟩, _⟩ := register_means Simplifier.keep_tame
      Chained.reachable_issued ⟨by with_unfolding_all decide, Chained.regular_pair⟩
      (by with_unfolding_all decide) outcome Chained.available_issued
    exact ⟨by with_unfolding_all decide, first, result, tensor, number, rfl, answered, entry,
      given, fun environment =>
        (means environment 0 _ (Chained.meansAt_pair answered entry environment)).1⟩

namespace Detour

def x : Symbol := ⟨1, "x", .vector 2, .real⟩

def w : Symbol := ⟨2, "w", .vector 2, .real⟩

def n : Symbol := ⟨3, "n", .vector 2, .real⟩

def m : Symbol := ⟨4, "m", .vector 2, .real⟩

def s : Symbol := ⟨5, "s", .vector 2, .real⟩

noncomputable def mixed : Tensor RealNumber :=
  ⟨.vector 2, [.atom (.entry w 0 0), .atom (.entry x 1 0)]⟩

noncomputable def registered : Session RealNumber :=
  (Command.register "m" m (.ofSymbol n) (.only .variable)).apply
    ((Command.register "n" n mixed (.only .variable)).apply
      ((Command.register "w" w (.ofSymbol x) (.only .variable)).apply
        ((Command.declareInput x (.only .parameter) (some ⟨.vector 2, [.zero, .one]⟩)).apply
          ⟨ofSettings .standard Simplifier.keep, ⟨5⟩⟩)))

noncomputable def built : Session RealNumber := Command.build.apply (Command.build.apply registered)

/-- The first build has left `m` as an alias of `n`, and the second one has removed `n` itself. -/
noncomputable def issued : Session RealNumber :=
  (Command.issue "s" (.vector 2) .real).apply built

noncomputable def reused : Session RealNumber :=
  (Command.register "s" s (.ofSymbol m) (.only .sensor)).apply issued

theorem regular_mixed : mixed.Regular 5 where
  length_eq := rfl
  entries := by
    intro entry among atom occurs
    have atoms : entry = .atom (.entry w 0 0) ∨ entry = .atom (.entry x 1 0) := by
      simpa [mixed] using among
    rcases atoms with rfl | rfl
    · rw [List.mem_singleton.mp occurs]
      exact ⟨Nat.zero_lt_two, (by decide : 2 < 5)⟩
    · rw [List.mem_singleton.mp occurs]
      exact ⟨Nat.one_lt_two, (by decide : 1 < 5)⟩

theorem reachable_built : Reachable Simplifier.keep built := by
  refine Reachable.step .build (Reachable.step .build (Reachable.step _ (Reachable.step _
    (Reachable.step _ (Reachable.step _ (Reachable.start ⟨5⟩ new_standard) ?_) ?_) ?_) ?_) trivial)
    trivial
  · exact (by decide : 1 < 5)
  · exact ⟨(by decide : 2 < 5), Tensor.regular_ofSymbol (by decide : 1 < 5)⟩
  · exact ⟨(by decide : 3 < 5), regular_mixed⟩
  · exact ⟨(by decide : 4 < 5), Tensor.regular_ofSymbol (by decide : 3 < 5)⟩

end Detour

/-- An alias whose target a later build has removed has an answer, but what is defined by it reads
the removed symbol: it has no numbers, and the next build fails. -/
theorem removed_target_unbound : Reachable Simplifier.keep Detour.issued ∧
    Detour.issued.graph.isDefined Detour.s = false ∧
    (answersOf Detour.issued Detour.m).map Tensor.symbols = some [] ∧
    ¬TransGen Detour.issued.graph.Cites Detour.s Detour.m ∧
    (answersOf Detour.reused Detour.s).map Tensor.symbols = some [Detour.n] ∧
    (match (build.perform Detour.reused).1 with
      | .error (.unboundSymbol read expression) => read == "n" && expression == "s"
      | _ => false) = true := by
  refine ⟨Reachable.step _ Detour.reachable_built trivial, by decide +kernel, by decide +kernel, ?_,
    by decide +kernel, by decide +kernel⟩
  have lawful := (Detour.reachable_built.fit Simplifier.keep_tame).valid.toLawful
  exact lawful.not_cites (by with_unfolding_all decide) Detour.m

end Mechanism.Graph
