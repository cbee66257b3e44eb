import Mechanism.Proofs.Graph.Founded
import Mechanism.Proofs.Graph.Resolution
import Mechanism.Proofs.Graph.Unfolding

/-!
Aliases in new definitions. A registration puts the symbols for which aliases stand in their place,
and a query of an alias puts the answers for these symbols in it; both come to the same, as long as
aliases stand for symbols with a value of their own.
-/

open Relation (ReflTransGen TransGen)

namespace Mechanism.Graph

open Mechanism.Graph.Action

variable {κ : Type} [Scalar κ] {limit : Nat} {graph : Graph κ} {simplifier : Simplifier κ}
  {session : Session κ} {symbol part read : Symbol} {value : Tensor κ}

/-- A symbol with a value of its own. -/
def Known (graph : Graph κ) (symbol : Symbol) : Prop :=
  graph.isInput symbol = true ∨ graph.isDefined symbol = true

/-- What the second symbol stands for, unless it is an input, reads the first one. -/
def Cites (graph : Graph κ) (read reader : Symbol) : Prop :=
  graph.isInput reader = false ∧
    ∃ tensor, graph.content? reader = some tensor ∧ read ∈ tensor.symbols

/-- A symbol that can be used in a definition of another one: it has an answer, which does not come
from the other one, and if it is an alias, it is one of symbols with a value. -/
structure Available (session : Session κ) (symbol part : Symbol) : Prop where
  answered : ∃ value, answer session part = .ok value
  independent : ¬TransGen session.graph.Cites symbol part
  direct : ∀ target, session.graph.aliases.find? part = some target →
    session.graph.isInput part = false ∧ ∀ read ∈ target.symbols, session.graph.Known read

theorem Lawful.cites_of_readBy (lawful : graph.Lawful limit) {reader : Symbol}
    (reads : graph.ReadBy read reader) : graph.Cites read reader := by
  obtain ⟨node, found, member⟩ := reads
  refine ⟨lawful.noInput found, node.value, by rw [content?, found], ?_⟩
  rwa [← (lawful.regular_of_nodeOf? found).reads_eq]

theorem Lawful.free (lawful : graph.Lawful limit) {other : Symbol} (differs : other ≠ symbol)
    (independent : ¬TransGen graph.Cites symbol other) : graph.Free symbol other := by
  intro depends
  rcases ReflTransGen.cases_head_iff.mp depends with same | ⟨next, reads, rest⟩
  · exact differs same.symm
  · exact independent (TransGen.mono (fun _ _ reads => lawful.cites_of_readBy reads) _ _
      (TransGen.head' reads rest))

theorem Retired.content? (retired : graph.Retired) {target : Tensor κ}
    (known : graph.aliases.find? part = some target) : graph.content? part = some target := by
  have undefined := retired part target known
  rw [isDefined_eq, Option.isSome_eq_false_iff, Option.isNone_iff_eq_none] at undefined
  rw [Graph.content?, undefined, known]

theorem Lawful.not_cites (lawful : graph.Lawful limit) (fresh : limit ≤ symbol.number)
    (reader : Symbol) : ¬TransGen graph.Cites symbol reader := by
  intro depends
  obtain ⟨next, ⟨_, tensor, content, member⟩, _⟩ := TransGen.head'_iff.mp depends
  have issued : tensor.Issued limit := by
    unfold Graph.content? at content
    split at content
    · rename_i node found
      cases content
      exact (lawful.regular_of_nodeOf? found).value
    · exact lawful.issued_alias content
  obtain ⟨atom, among, rfl⟩ := Tensor.mem_symbols.mp member
  exact absurd (issued.numbers atom among) (not_lt.mpr fresh)

theorem isEmpty_aliases (empty : graph.aliases.isEmpty = true) (symbol : Symbol) :
    graph.aliases.find? symbol = none := by
  rw [Table.find?, List.isEmpty_iff.mp empty]
  rfl

theorem Lawful.mem_resolveAliases (lawful : graph.Lawful limit) (regular : value.Regular limit)
    (member : read ∈ (graph.resolveAliases value).symbols) :
    ∃ part ∈ value.symbols, graph.aliases.find? part = none ∧ read = part ∨
      ∃ target, graph.aliases.find? part = some target ∧ target = .ofSymbol read ∧
        read ∈ target.symbols := by
  rw [resolveAliases_eq] at member
  split at member
  · rename_i empty
    exact ⟨read, member, Or.inl ⟨isEmpty_aliases empty read, rfl⟩⟩
  obtain ⟨atom, within, rfl⟩ := Tensor.mem_symbols.mp member
  obtain ⟨replaced, among, occurs⟩ := Tensor.mem_atoms_substitute within
  refine ⟨replaced.symbol, Tensor.mem_symbols.mpr ⟨replaced, among, rfl⟩, ?_⟩
  cases known : graph.aliases.find? replaced.symbol with
  | none =>
      rw [replacementOf_standIn_none known, Expr.occurrences, List.mem_singleton] at occurs
      exact Or.inl ⟨rfl, by rw [occurs]⟩
  | some target =>
      obtain ⟨other, inside, whole, same, _⟩ :=
        lawful.replacementOf_standIn known (regular.atoms among).within
      rw [whole, Expr.occurrences, List.mem_singleton] at occurs
      subst occurs
      exact Or.inr ⟨target, rfl, same, Tensor.mem_symbols.mpr ⟨atom, inside, rfl⟩⟩

theorem Lawful.meansAt_resolveAliases [Exact κ] (lawful : graph.Lawful limit)
    (regular : value.Regular limit) {left right : Environment} {index : Nat} {number : ℝ}
    (means : value.MeansAt left index number)
    (plain : ∀ atom ∈ value.atoms, graph.aliases.find? atom.symbol = none → ∀ number,
      left.read atom = some number → right.read atom = some number)
    (aliased : ∀ atom ∈ value.atoms, ∀ other : Atom,
      graph.aliases.find? atom.symbol = some (.ofSymbol other.symbol) →
        other ∈ (Tensor.ofSymbol other.symbol : Tensor κ).atoms → other.flatIndex = atom.flatIndex →
          ∀ number, left.read atom = some number → right.read other = some number) :
    (graph.resolveAliases value).MeansAt right index number := by
  rw [resolveAliases_eq]
  split
  · rename_i empty
    exact means.mono fun atom member => plain atom member (isEmpty_aliases empty atom.symbol)
  · refine means.substitute fun atom member number known => ?_
    cases found : graph.aliases.find? atom.symbol with
    | none =>
        rw [replacementOf_standIn_none found, Expr.means_atom]
        exact plain atom member found number known
    | some target =>
        obtain ⟨other, inside, whole, rfl, same⟩ :=
          lawful.replacementOf_standIn found (regular.atoms member).within
        rw [whole, Expr.means_atom]
        exact aliased atom member other found inside same number known

theorem answer_input (input : session.graph.isInput symbol = true) :
    answer session symbol =
      .ok ((session.graph.store.binding? symbol).getD (.ofSymbol symbol)) := by
  rw [answer, perform_valueOf, perform_valueWith_input _ input]

theorem answer_unknown (noInput : session.graph.isInput symbol = false)
    (undefined : session.graph.isDefined symbol = false)
    (unknown : session.graph.aliases.find? symbol = none) :
    answer session symbol = .error (.unknownSymbol symbol.name) := by
  have missing : session.graph.liveIndex? symbol = none := by simpa [isDefined] using undefined
  rw [answer, perform_valueOf, perform_valueWith_unknown _ noInput missing unknown]

/-- An alias of a symbol with a value is answered by the entries of the answer for that symbol. -/
theorem answer_alias (noInput : session.graph.isInput part = false)
    (undefined : session.graph.isDefined part = false)
    (found : session.graph.aliases.find? part = some (.ofSymbol read))
    (single : (Tensor.ofSymbol read : Tensor κ).symbols = [read])
    (known : session.graph.Known read) (answered : answer session part = .ok value) :
    ∃ inner, answer session read = .ok inner ∧
      value = (Tensor.ofSymbol read).substitute (entryOf [(read, inner)]) := by
  have missing : session.graph.liveIndex? part = none := by simpa [isDefined] using undefined
  rw [answer, perform_valueOf, perform_valueWith_renamed _ noInput missing found single] at answered
  generalize session.graph.aliases.size = fuel at answered
  cases fuel with
  | zero => cases answered
  | succ fuel =>
      rw [perform_valueWith_known fuel known] at answered
      rw [answer]
      rcases outcome : (valueOf read).perform session with ⟨error | inner, last⟩
      · rw [outcome] at answered
        cases answered
      · rw [outcome] at answered
        cases answered
        exact ⟨inner, rfl, rfl⟩

theorem current_of_answer {atom : Atom} (known : session.graph.Known atom.symbol)
    (answered : answer session atom.symbol = .ok value) :
    current session atom = (value.entryAt atom.flatIndex).toOption ∨
      current session atom = none ∧ value = .ofSymbol atom.symbol := by
  rw [current]
  cases input : session.graph.isInput atom.symbol with
  | true =>
      rw [if_pos rfl]
      rw [answer_input input] at answered
      cases bound : session.graph.store.binding? atom.symbol with
      | none =>
          rw [bound] at answered
          cases answered
          exact Or.inr ⟨rfl, rfl⟩
      | some binding =>
          rw [bound] at answered
          cases answered
          exact Or.inl rfl
  | false =>
      rw [Known, input, or_iff_right Bool.false_ne_true] at known
      rw [if_neg Bool.false_ne_true, if_pos known, answered]
      exact Or.inl rfl

/-- The symbol with everything put in its place that is known at present. -/
def seen (session : Session κ) (symbol : Symbol) : Tensor κ :=
  (Tensor.ofSymbol symbol).substitute (current session)

section

variable [Exact κ] {environment : Environment} {number : ℝ}

/-- Two atoms at one place of one symbol need not be the same, but are seen as the same. -/
theorem means_current_congr {atom other : Atom} (symbols : atom.symbol = other.symbol)
    (indices : atom.flatIndex = other.flatIndex)
    (means : (Expr.replacementOf (current session) atom).Means environment number) :
    (Expr.replacementOf (current session) other).Means environment number := by
  have same : current session other = current session atom := by
    rw [current, current, symbols, indices]
  rw [Expr.replacementOf] at means ⊢
  rw [same]
  cases found : current session atom with
  | some entry => rwa [found] at means
  | none =>
      rw [found, Option.getD_none, Expr.means_atom] at means
      rwa [Option.getD_none, Expr.means_atom, Environment.read, ← symbols, ← indices]

theorem meansAt_seen {atom : Atom} (within : atom.Within) :
    (seen session atom.symbol).MeansAt environment atom.flatIndex number ↔
      (Expr.replacementOf (current session) atom).Means environment number := by
  obtain ⟨other, entry, same, index⟩ := Tensor.entryAt_ofSymbol (κ := κ) within
  constructor
  · rintro ⟨found, at_, means⟩
    obtain ⟨original, again, rfl⟩ := Tensor.entryAt_substitute.mp at_
    rw [entry, Except.ok.injEq] at again
    subst again
    rw [Expr.substitute_atom] at means
    exact means_current_congr same index means
  · intro means
    refine ⟨_, Tensor.entryAt_substitute.mpr ⟨_, entry, Expr.substitute_atom _ other⟩, ?_⟩
    exact means_current_congr same.symm index.symm means

theorem meansAt_seen_of_answer {atom : Atom} (within : atom.Within)
    (known : session.graph.Known atom.symbol) (answered : answer session atom.symbol = .ok value)
    (means : (((value.entryAt atom.flatIndex).toOption).getD (.atom atom)).Means environment
      number) :
    (seen session atom.symbol).MeansAt environment atom.flatIndex number := by
  rw [meansAt_seen within]
  rcases current_of_answer known answered with same | ⟨none, rfl⟩
  · rwa [Expr.replacementOf, same]
  · obtain ⟨other, entry, same, index⟩ := Tensor.entryAt_ofSymbol (κ := κ) within
    rw [entry, Except.toOption, Option.getD_some, Expr.means_atom, Environment.read, same,
      index] at means
    rwa [Expr.replacementOf, none, Option.getD_none, Expr.means_atom]

theorem meansAt_seen_of_alias {atom : Atom} {inner : Tensor κ} (within : atom.Within)
    (known : session.graph.Known atom.symbol) (answered : answer session atom.symbol = .ok inner)
    (means : ((Tensor.ofSymbol atom.symbol).substitute (entryOf [(atom.symbol, inner)])).MeansAt
      environment atom.flatIndex number) :
    (seen session atom.symbol).MeansAt environment atom.flatIndex number := by
  obtain ⟨found, at_, means⟩ := means
  obtain ⟨original, again, rfl⟩ := Tensor.entryAt_substitute.mp at_
  obtain ⟨other, entry, same, index⟩ := Tensor.entryAt_ofSymbol (κ := κ) within
  rw [entry, Except.ok.injEq] at again
  subst again
  have whole : entryOf [(atom.symbol, inner)] other = (inner.entryAt other.flatIndex).toOption := by
    simp [entryOf, same]
  rw [Expr.substitute_atom, Expr.replacementOf, whole] at means
  rw [← same] at known answered ⊢
  rw [← index]
  have place : other.Within := by
    rw [Atom.Within, same, index]
    exact within
  exact meansAt_seen_of_answer place known answered means

end

/-- A symbol that a new definition of another one may read. -/
structure Sound (graph : Graph κ) (symbol read : Symbol) : Prop where
  known : graph.Known read
  free : graph.Free symbol read
  founded : graph.isDefined read = true → Acc graph.Reads read

section

variable (tame : simplifier.Tame) (reachable : Reachable simplifier session)

include tame reachable

theorem Available.sound_plain (undefined : session.graph.isDefined symbol = false)
    (noInput : session.graph.isInput symbol = false)
    (available : Available session symbol part)
    (plain : session.graph.aliases.find? part = none) : session.graph.Sound symbol part := by
  have valid := (reachable.fit tame).valid
  obtain ⟨value, answered⟩ := available.answered
  have known : session.graph.Known part := by
    rw [Known]
    by_contra unknown
    rw [not_or, Bool.not_eq_true, Bool.not_eq_true] at unknown
    rw [answer_unknown unknown.1 unknown.2 plain] at answered
    cases answered
  have differs : part ≠ symbol := by
    rintro rfl
    rw [Known, noInput, undefined] at known
    exact known.elim Bool.false_ne_true Bool.false_ne_true
  exact ⟨known, valid.toLawful.free differs available.independent,
    fun defined => acc_of_answer valid (reachable.attainable.founded tame.toModest) defined answered⟩

theorem Available.sound_alias (available : Available session symbol part)
    (found : session.graph.aliases.find? part = some (.ofSymbol read))
    (member : read ∈ (Tensor.ofSymbol read : Tensor κ).symbols) :
    session.graph.Sound symbol read ∧ ∃ inner, answer session read = .ok inner ∧
      answer session part =
        .ok ((Tensor.ofSymbol read).substitute (entryOf [(read, inner)])) := by
  have valid := (reachable.fit tame).valid
  have retired := reachable.attainable.retired tame.toModest
  obtain ⟨noInput, known⟩ := available.direct _ found
  have cites : session.graph.Cites read part := ⟨noInput, _, retired.content? found, member⟩
  have single : (Tensor.ofSymbol read : Tensor κ).symbols = [read] := by
    rcases Tensor.symbols_ofSymbol (κ := κ) read with none | single
    · rw [none] at member
      cases member
    · exact single
  obtain ⟨value, partAnswered⟩ := available.answered
  obtain ⟨inner, answered, rfl⟩ := answer_alias noInput (retired part _ found) found single
    (known read member) partAnswered
  refine ⟨⟨known read member, valid.toLawful.free ?_ ?_, ?_⟩, inner, answered, partAnswered⟩
  · rintro rfl
    exact available.independent (TransGen.single cites)
  · exact fun depends => available.independent (depends.tail cites)
  · have founded := reachable.attainable.founded tame.toModest
    exact fun defined => acc_of_answer valid founded defined answered

theorem sound_resolveAliases (regular : value.Regular session.supply.next)
    (undefined : session.graph.isDefined symbol = false)
    (noInput : session.graph.isInput symbol = false)
    (available : ∀ part ∈ value.symbols, Available session symbol part)
    (member : read ∈ (session.graph.resolveAliases value).symbols) :
    session.graph.Sound symbol read := by
  have lawful := (reachable.fit tame).valid.toLawful
  obtain ⟨part, among, ⟨plain, rfl⟩ | ⟨_, found, rfl, inside⟩⟩ :=
    lawful.mem_resolveAliases regular member
  · exact (available read among).sound_plain tame reachable undefined noInput plain
  · exact ((available part among).sound_alias tame reachable found inside).1

end

end Mechanism.Graph
