import Mechanism.Proofs.Graph.Rewriting
import Mechanism.Proofs.Graph.Sharing

/-!
Graphs whose repeated subexpressions have got symbols of their own. Every definition is shared, and
each new symbol is defined by the expression that it stands for; so the graph can be evaluated as
before, and every old symbol has its old value.
-/

namespace Mechanism.Graph

variable {κ : Type} [Scalar κ] {limit more : Nat}

/-- How the second graph comes from the first one when expressions have got names. -/
structure Shares (named : Naming κ) (temporaries : List (Symbol × Expr κ))
    (before after : Graph κ) : Prop where
  old : ∀ {symbol : Symbol} {node : Node κ}, before.nodeOf? symbol = some node →
    ∃ value, after.nodeOf? symbol = some (node.withValue value) ∧
      SharedTensor named node.value value
  new : ∀ {symbol : Symbol} {value : Expr κ}, (symbol, value) ∈ temporaries →
    ∃ node, after.nodeOf? symbol = some node ∧ node.value = .ofExpr value
  only : ∀ {symbol : Symbol}, after.isDefined symbol = true →
    before.isDefined symbol = true ∨ ∃ value, (symbol, value) ∈ temporaries
  inputs : after.inputs = before.inputs
  aliases : after.aliases = before.aliases
  source : ∀ {expr : Expr κ} {symbol : Symbol}, named expr symbol →
    (∃ node, before.nodeOf? symbol = some node ∧ node.value = .ofExpr expr) ∨
      ∃ value, (symbol, value) ∈ temporaries ∧ SharedBelow named expr value
  made : ∀ {symbol : Symbol} {value : Expr κ}, (symbol, value) ∈ temporaries →
    ∃ expr, named expr symbol ∧ SharedBelow named expr value
  reads : ∀ {expr : Expr κ} {symbol : Symbol}, named expr symbol → ∀ atom ∈ expr.occurrences,
    before.isDefined atom.symbol = true ∨ before.isInput atom.symbol = true

variable {named : Naming κ} {temporaries : List (Symbol × Expr κ)} {before after : Graph κ}

/-- What holds of the atoms of an expression, and of a symbol once it holds of the atoms of what the
symbol stands for, holds of the atoms of the shared expression. -/
theorem shared_occurrences (property : Atom → Prop)
    (symbols : ∀ expr symbol, named expr symbol →
      (∀ value, SharedBelow named expr value → ∀ atom ∈ value.occurrences, property atom) →
        property (.whole symbol))
    {expr : Expr κ} (atoms : ∀ atom ∈ expr.occurrences, property atom) {result : Expr κ}
    (shared : Shared named expr result) : ∀ atom ∈ result.occurrences, property atom := by
  induction expr using Expr.induct generalizing result with
  | step expr ih =>
      have below : ∀ value, SharedBelow named expr value → ∀ atom ∈ value.occurrences,
          property atom := by
        rintro value ⟨operands, parts, rfl⟩ atom occurs
        by_cases leaf : expr.isLeaf = true
        · rw [Expr.rebuild_leaf leaf] at occurs
          exact atoms atom occurs
        · obtain ⟨operand, among, inside⟩ := Expr.mem_occurrences_rebuild (by simpa using leaf)
            parts.length_eq.symm occurs
          obtain ⟨position, bound, rfl⟩ := List.getElem_of_mem among
          have childBound : position < expr.children.length := by
            rw [parts.length_eq]
            exact bound
          have member : expr.children[position] ∈ expr.children := List.getElem_mem childBound
          exact ih _ member (fun atom occurs => atoms atom (Expr.occurrences_of_child member occurs))
            (parts.get childBound bound) atom inside
      cases shared with
      | symbol isNamed =>
          intro atom occurs
          rw [Expr.occurrences, List.mem_singleton] at occurs
          exact occurs ▸ symbols _ _ isNamed below
      | rebuilt parts => exact below _ ⟨_, parts, rfl⟩

theorem SharedTensor.atoms (property : Atom → Prop)
    (symbols : ∀ expr symbol, named expr symbol →
      (∀ value, SharedBelow named expr value → ∀ atom ∈ value.occurrences, property atom) →
        property (.whole symbol))
    {tensor result : Tensor κ} (shared : SharedTensor named tensor result)
    (atoms : ∀ atom ∈ tensor.atoms, property atom) : ∀ atom ∈ result.atoms, property atom := by
  intro atom member
  obtain ⟨entry, among, occurs⟩ := Tensor.mem_atoms.mp member
  obtain ⟨position, bound, rfl⟩ := List.getElem_of_mem among
  have before : position < tensor.entries.length := by
    rw [shared.entries.length_eq]
    exact bound
  refine shared_occurrences property symbols ?_ (shared.entries.get before bound) atom occurs
  intro inner inside
  exact atoms inner (Tensor.mem_atoms.mpr ⟨_, List.getElem_mem before, inside⟩)

namespace Shares

variable (shares : Shares named temporaries before after)

include shares

theorem stands {expr : Expr κ} {symbol : Symbol} (isNamed : named expr symbol) :
    ∃ node value, after.nodeOf? symbol = some node ∧ node.value = .ofExpr value ∧
      SharedBelow named expr value := by
  rcases shares.source isNamed with ⟨node, found, whole⟩ | ⟨value, member, below⟩
  · obtain ⟨tensor, now, shared⟩ := shares.old found
    have scalar : node.value.shape.isScalar = true := by
      rw [whole]
      rfl
    have entries := shared.below scalar
    have shape := shared.shape_eq
    rw [whole] at entries shape
    obtain ⟨tensorShape, tensorEntries⟩ := tensor
    cases entries with
    | cons first rest =>
        cases rest
        cases shape
        exact ⟨_, _, now, rfl, first⟩
  · obtain ⟨node, found, whole⟩ := shares.new member
    exact ⟨node, value, found, whole, below⟩

theorem isDefined_of_before {symbol : Symbol} (defined : before.isDefined symbol = true) :
    after.isDefined symbol = true := by
  obtain ⟨node, found⟩ := isDefined_iff.mp defined
  obtain ⟨value, now, _⟩ := shares.old found
  exact isDefined_iff.mpr ⟨_, now⟩

theorem isInput_eq (symbol : Symbol) : after.isInput symbol = before.isInput symbol := by
  rw [isInput, shares.inputs, isInput]

theorem definition_atoms (property : Atom → Prop)
    (symbols : ∀ expr symbol, named expr symbol →
      (∀ value, SharedBelow named expr value → ∀ atom ∈ value.occurrences, property atom) →
        property (.whole symbol))
    {symbol : Symbol} {node : Node κ} (found : after.nodeOf? symbol = some node)
    (old : ∀ former, before.nodeOf? symbol = some former → ∀ atom ∈ former.value.atoms, property atom)
    (named : ∀ expr, named expr symbol → ∀ atom ∈ expr.occurrences, property atom) :
    ∀ atom ∈ node.value.atoms, property atom := by
  rcases shares.only (isDefined_iff.mpr ⟨node, found⟩) with defined | ⟨value, member⟩
  · obtain ⟨former, live⟩ := isDefined_iff.mp defined
    obtain ⟨tensor, now, shared⟩ := shares.old live
    rw [found, Option.some.injEq] at now
    subst now
    exact shared.atoms property symbols (old former live)
  · obtain ⟨made, now, whole⟩ := shares.new member
    rw [found, Option.some.injEq] at now
    subst now
    obtain ⟨expr, isNamed, below⟩ := shares.made member
    intro atom reads
    rw [whole, Tensor.mem_atoms_ofExpr] at reads
    exact shared_occurrences property symbols (named expr isNamed) below.shared atom reads

theorem bound (lawful : before.Lawful limit) (lawfulAfter : after.Lawful more)
    (bound : before.Bound) : after.Bound := by
  intro symbol node found read member
  rw [(lawfulAfter.regular_of_nodeOf? found).reads_eq] at member
  obtain ⟨atom, reads, rfl⟩ := Tensor.mem_symbols.mp member
  have kept : ∀ symbol, before.isDefined symbol = true ∨ before.isInput symbol = true →
      after.isDefined symbol = true ∨ after.isInput symbol = true := by
    rintro symbol (defined | input)
    · exact Or.inl (shares.isDefined_of_before defined)
    · exact Or.inr (by rwa [shares.isInput_eq])
  refine shares.definition_atoms (fun atom =>
    after.isDefined atom.symbol = true ∨ after.isInput atom.symbol = true) ?_ found ?_ ?_ atom reads
  · intro expr symbol isNamed _
    obtain ⟨node, _, now, _⟩ := shares.stands isNamed
    exact Or.inl (isDefined_iff.mpr ⟨node, now⟩)
  · intro former live atom reads
    apply kept
    apply bound symbol former live
    exact (lawful.regular_of_nodeOf? live).mem_reads reads
  · intro expr isNamed atom occurs
    exact kept _ (shares.reads isNamed atom occurs)

theorem acc_input (lawfulAfter : after.Lawful more) {symbol : Symbol}
    (isInput : before.isInput symbol = true) : Acc after.Reads symbol := by
  constructor
  intro read reads
  have apart : after.isDefined symbol = false :=
    lawfulAfter.apart (by rwa [shares.isInput_eq])
  rw [reads.isDefined_reader] at apart
  cases apart

theorem acc_named (lawfulAfter : after.Lawful more) {expr : Expr κ} {symbol : Symbol}
    (isNamed : named expr symbol)
    (inner : ∀ value, SharedBelow named expr value → ∀ atom ∈ value.occurrences,
      Acc after.Reads atom.symbol) : Acc after.Reads symbol := by
  constructor
  rintro read ⟨node, found, member, _⟩
  obtain ⟨other, value, now, whole, below⟩ := shares.stands isNamed
  rw [found, Option.some.injEq] at now
  subst now
  rw [(lawfulAfter.regular_of_nodeOf? found).reads_eq, whole] at member
  obtain ⟨atom, reads, rfl⟩ := Tensor.mem_symbols.mp member
  exact inner value below atom (Tensor.mem_atoms_ofExpr.mp reads)

theorem acc_old (lawful : before.Lawful limit) (lawfulAfter : after.Lawful more)
    (bound : before.Bound) (acyclic : before.Acyclic) {symbol : Symbol}
    (defined : before.isDefined symbol = true) : Acc after.Reads symbol := by
  -- a definition by what it depended on, each of its atoms by the parts it has been made from
  induction symbol using acyclic.induction with
  | h symbol ih =>
      obtain ⟨former, live⟩ := isDefined_iff.mp defined
      obtain ⟨tensor, now, shared⟩ := shares.old live
      constructor
      rintro read ⟨node, found, member, _⟩
      rw [found, Option.some.injEq] at now
      subst now
      obtain ⟨atom, reads, rfl⟩ := Tensor.mem_symbols.mp member
      refine shared.atoms (fun atom => Acc after.Reads atom.symbol)
        (fun _ _ isNamed inner => shares.acc_named lawfulAfter isNamed inner) ?_ atom reads
      intro inner inside
      have among : inner.symbol ∈ former.reads := (lawful.regular_of_nodeOf? live).mem_reads inside
      rcases bound symbol former live inner.symbol among with known | isInput
      · exact ih inner.symbol ⟨former, live, among, known⟩ known
      · exact shares.acc_input lawfulAfter isInput

theorem acyclic (lawful : before.Lawful limit) (lawfulAfter : after.Lawful more)
    (bound : before.Bound) (acyclic : before.Acyclic) : after.Acyclic := by
  constructor
  intro symbol
  cases known : after.isDefined symbol with
  | false =>
      constructor
      intro read reads
      rw [reads.isDefined_reader] at known
      cases known
  | true =>
      rcases shares.only known with defined | ⟨value, member⟩
      · exact shares.acc_old lawful lawfulAfter bound acyclic defined
      · obtain ⟨expr, isNamed, _⟩ := shares.made member
        apply shares.acc_named lawfulAfter isNamed
        intro result below
        apply shared_occurrences (fun atom => Acc after.Reads atom.symbol)
          (fun _ _ isNamed inner => shares.acc_named lawfulAfter isNamed inner) _ below.shared
        intro atom occurs
        rcases shares.reads isNamed atom occurs with defined | isInput
        · exact shares.acc_old lawful lawfulAfter bound acyclic defined
        · exact shares.acc_input lawfulAfter isInput

variable [Exact κ]

theorem keeps (lawfulAfter : after.Lawful more) {inputs : Symbol → Nat → ℝ}
    {environment : Environment} (solves : after.Solves inputs environment) {expr result : Expr κ}
    (shared : Shared named expr result) : Expr.Keeps environment environment expr result := by
  induction expr using Expr.induct generalizing result with
  | step expr ih =>
      have below : ∀ value, SharedBelow named expr value →
          Expr.Keeps environment environment expr value := by
        rintro value ⟨operands, parts, rfl⟩
        by_cases leaf : expr.isLeaf = true
        · rw [Expr.rebuild_leaf leaf]
          exact fun _ means => means
        · apply Expr.keeps_rebuild (by simpa using leaf)
          have inside := (List.forall₂_and_left _ _).mpr ⟨fun _ member => member, parts⟩
          exact inside.imp fun child result part => ih child part.1 part.2
      cases shared with
      | rebuilt parts => exact below _ ⟨_, parts, rfl⟩
      | @symbol _ symbol isNamed =>
          intro number means
          obtain ⟨node, value, found, whole, shared⟩ := shares.stands isNamed
          have content : after.content? symbol = some (.ofExpr value) := by
            rw [content?, found]
            simp only [whole]
          rw [Expr.means_atom]
          exact solves.content (lawfulAfter.noInput found) content
            ⟨value, Tensor.entryAt_eq_ok.mpr ⟨Nat.zero_lt_one, rfl⟩, below value shared number means⟩

theorem solves (lawful : before.Lawful limit) (lawfulAfter : after.Lawful more)
    {inputs : Symbol → Nat → ℝ} {environment : Environment}
    (solves : after.Solves inputs environment)
    (fresh : ∀ symbol value, (symbol, value) ∈ temporaries → limit ≤ symbol.number) :
    before.Solves inputs environment where
  input := by
    intro symbol index input
    exact solves.input index (by rwa [shares.isInput_eq])
  content := by
    intro symbol index number tensor noInput found means
    have noInputAfter : after.isInput symbol = false := by rwa [shares.isInput_eq]
    cases live : before.nodeOf? symbol with
    | some node =>
        rw [content?, live, Option.some.injEq] at found
        subst found
        obtain ⟨value, now, shared⟩ := shares.old live
        have content : after.content? symbol = some value := by
          rw [content?, now]
          rfl
        apply solves.content noInputAfter content
        obtain ⟨entry, at_, means⟩ := means
        obtain ⟨bound, position⟩ := Tensor.entryAt_eq_ok.mp at_
        obtain ⟨inside, rfl⟩ := List.getElem?_eq_some_iff.mp position
        have insideAfter : index < value.entries.length := by
          rw [← shared.entries.length_eq]
          exact inside
        refine ⟨value.entries[index], Tensor.entryAt_eq_ok.mpr
          ⟨by rwa [shared.shape_eq], List.getElem?_eq_getElem insideAfter⟩, ?_⟩
        exact shares.keeps lawfulAfter solves (shared.entries.get inside insideAfter) number means
    | none =>
        rw [content?, live] at found
        obtain ⟨other, stands⟩ := lawful.aliases found
        have missing : after.nodeOf? symbol = none := by
          rw [Option.eq_none_iff_forall_ne_some]
          intro node now
          rcases shares.only (isDefined_iff.mpr ⟨node, now⟩) with defined | ⟨value, member⟩
          · rw [isDefined_eq, live] at defined
            cases defined
          · have lower := fresh symbol value member
            have upper := stands.issued.1
            omega
        apply solves.content noInputAfter _ means
        rw [content?, missing, shares.aliases]
        exact found

theorem refines (lawful : before.Lawful limit) (lawfulAfter : after.Lawful more)
    (fresh : ∀ symbol value, (symbol, value) ∈ temporaries → limit ≤ symbol.number)
    (kept : Symbol → Prop) : Refines kept before after :=
  Refines.of_solves fun _ _ solves => shares.solves lawful lawfulAfter solves fresh

end Shares

end Mechanism.Graph
