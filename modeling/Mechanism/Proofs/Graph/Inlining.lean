import Mathlib.Algebra.BigOperators.Group.Finset.Basic
import Mathlib.Algebra.Order.BigOperators.Group.Finset
import Mechanism.Proofs.Graph.Naming

/-!
Putting a temporary that is read once back into the equation that reads it. Nothing is read more
often afterwards, so the other temporaries still have one reader.
-/

open Relation (TransGen)

namespace Mechanism

namespace Graph

variable {κ : Type} [Scalar κ] {limit more : Nat} {graph : Graph κ}

theorem replacementOf_replaceSymbol {symbol : Symbol} {atom : Atom} (here : atom.symbol = symbol)
    (replacement : Expr κ) :
    Expr.replacementOf (replaceSymbol symbol replacement) atom = replacement := by
  simp [Expr.replacementOf, replaceSymbol, here]

theorem replacementOf_replaceSymbol_of_ne {symbol : Symbol} {atom : Atom}
    (away : atom.symbol ≠ symbol) (replacement : Expr κ) :
    Expr.replacementOf (replaceSymbol symbol replacement) atom = .atom atom := by
  simp [Expr.replacementOf, replaceSymbol, away]

theorem usesIn_replaceSymbol_le (wanted : Atom → Bool) (symbol : Symbol) (replacement : Expr κ)
    (atoms : List Atom) :
    Expr.usesIn wanted (atoms.map (Expr.replacementOf (replaceSymbol symbol replacement))) ≤
      atoms.countP (fun atom => atom.symbol == symbol) * Expr.uses wanted replacement +
        atoms.countP wanted := by
  induction atoms with
  | nil => simp
  | cons head tail ih =>
      rw [List.map_cons, Expr.usesIn_cons, List.countP_cons, List.countP_cons, Nat.add_mul]
      by_cases here : head.symbol = symbol
      · have put := replacementOf_replaceSymbol here replacement
        simp only [put, here, beq_self_eq_true, ↓reduceIte]
        omega
      · have kept := replacementOf_replaceSymbol_of_ne here replacement
        rw [kept, Expr.uses_atom]
        omega

theorem usesIn_substitute_le (wanted : Atom → Bool) (symbol : Symbol) (replacement : Expr κ)
    (exprs : List (Expr κ)) :
    Expr.usesIn wanted (exprs.map (Expr.substitute (replaceSymbol symbol replacement))) ≤
      Expr.usesIn (fun atom => atom.symbol == symbol) exprs * Expr.uses wanted replacement +
        Expr.usesIn wanted exprs := by
  induction exprs with
  | nil => simp
  | cons head tail ih =>
      have first := (Expr.uses_substitute_le wanted (replaceSymbol symbol replacement) head).trans
        (usesIn_replaceSymbol_le wanted symbol replacement head.occurrences)
      rw [List.map_cons, Expr.usesIn_cons, Expr.usesIn_cons, Expr.usesIn_cons, Nat.add_mul]
      simp only [Expr.uses] at first ih ⊢
      omega

def usesAt (graph : Graph κ) (wanted : Atom → Bool) (index : Nat) : Nat :=
  ((graph.node? index).map fun node => Expr.usesIn wanted node.value.entries).getD 0

theorem usesAt_live {wanted : Atom → Bool} {index : Nat} {node : Node κ}
    (live : graph.node? index = some node) :
    graph.usesAt wanted index = Expr.usesIn wanted node.value.entries := by
  rw [usesAt, live]
  rfl

theorem Lawful.usesAt_pos (lawful : graph.Lawful limit) {index : Nat} {node : Node κ}
    {symbol : Symbol} (live : graph.node? index = some node) (reads : symbol ∈ node.reads) :
    0 < graph.usesAt (fun atom => atom.symbol == symbol) index := by
  rw [(lawful.regular live).reads_eq] at reads
  obtain ⟨atom, member, same⟩ := Tensor.mem_symbols.mp reads
  obtain ⟨entry, among, occurs⟩ := Tensor.mem_atoms.mp member
  rw [usesAt_live live]
  exact (Expr.usesIn_pos _).mpr ⟨entry, among, (Expr.uses_pos _).mpr ⟨atom, occurs, by simp [same]⟩⟩

def weightAt (graph : Graph κ) (weight : Equation κ → Nat) (index : Nat) : Nat :=
  ((graph.node? index).map fun node => weight node.equation).getD 0

theorem weightAt_live {weight : Equation κ → Nat} {index : Nat} {node : Node κ}
    (live : graph.node? index = some node) : graph.weightAt weight index = weight node.equation := by
  rw [weightAt, live]
  rfl

theorem sum_equations (graph : Graph κ) (weight : Equation κ → Nat) :
    (graph.equations.map weight).sum =
      ∑ index ∈ Finset.range graph.nodes.length, graph.weightAt weight index := by
  have walk : ∀ indices : List Nat,
      (((indices.filter fun index => (graph.node? index).isSome).filterMap graph.node?).map
        fun node => weight node.equation).sum = (indices.map (graph.weightAt weight)).sum := by
    intro indices
    induction indices with
    | nil => rfl
    | cons head tail ih =>
        rw [List.map_cons, List.sum_cons, ← ih, weightAt, List.filter_cons]
        cases live : graph.node? head with
        | none => simp
        | some node => simp [live]
  rw [equations, liveNodes_eq, List.map_map]
  exact walk (List.range graph.nodes.length)

theorem usesOf_eq (graph : Graph κ) (symbol : Symbol) :
    graph.usesOf symbol =
      ∑ index ∈ Finset.range graph.nodes.length,
        graph.usesAt (fun atom => atom.symbol == symbol) index := by
  rw [usesOf, total_eq, Grouping.sum_map_flatMap, sum_equations]
  rfl

end Graph

namespace Environment

variable {κ : Type} [Scalar κ] [Exact κ]

open Classical in
noncomputable def withDefinition (environment : Environment) (symbol : Symbol) (tensor : Tensor κ) :
    Environment :=
  fun other index =>
    if other = symbol then
      if found : ∃ value, tensor.MeansAt environment index value then some found.choose else none
    else environment other index

variable {environment : Environment} {symbol : Symbol} {tensor : Tensor κ} {index : Nat}

theorem withDefinition_of_ne {other : Symbol} (away : other ≠ symbol) :
    environment.withDefinition symbol tensor other index = environment other index := by
  rw [withDefinition, if_neg away]

theorem withDefinition_self {value : ℝ} :
    environment.withDefinition symbol tensor symbol index = some value ↔
      tensor.MeansAt environment index value := by
  rw [withDefinition, if_pos rfl]
  exact choose_eq_some Tensor.MeansAt.unique

end Environment

namespace Graph

variable {κ : Type} [Scalar κ] {limit more : Nat} {graph : Graph κ}

/-- A scalar equation whose symbol is used once, and the equation that uses it. -/
structure Inlines (graph : Graph κ) (temporary reader : Nat) (node other : Node κ)
    (replacement : Expr κ) : Prop where
  live : graph.node? temporary = some node
  value_eq : node.value = .ofExpr replacement
  readerLive : graph.node? reader = some other
  differ : reader ≠ temporary
  reads : node.symbol ∈ other.reads
  single : graph.usesOf node.symbol ≤ 1

def inlined (graph : Graph κ) (temporary reader : Nat) (node other : Node κ)
    (replacement : Expr κ) : Graph κ :=
  (graph.setValue reader (other.value.substitute (replaceSymbol node.symbol replacement))).removeNode
    temporary

namespace Inlines

variable {temporary reader : Nat} {node other : Node κ} {replacement : Expr κ}
  (inlines : Inlines graph temporary reader node other replacement)

include inlines

theorem node?_inlined (index : Nat) :
    (graph.inlined temporary reader node other replacement).node? index =
      if temporary = index then none
      else if reader = index then
        some (other.withValue (other.value.substitute (replaceSymbol node.symbol replacement)))
      else graph.node? index := by
  rw [inlined, node?_removeNode, node?_setValue]
  split
  · rfl
  · split
    · rename_i here
      subst here
      rw [inlines.readerLive]
      rfl
    · rfl

theorem unread (lawful : graph.Lawful limit) {index : Nat} {third : Node κ}
    (live : graph.node? index = some third) (elsewhere : index ≠ reader) :
    node.symbol ∉ third.reads := by
  intro reads
  have here := lawful.usesAt_pos live reads
  have there := lawful.usesAt_pos inlines.readerLive inlines.reads
  have both : ∑ position ∈ Finset.range graph.nodes.length,
      ((if position = index then 1 else 0) + (if position = reader then 1 else 0)) ≤
        graph.usesOf node.symbol := by
    rw [usesOf_eq]
    apply Finset.sum_le_sum
    intro position _
    by_cases first : position = index
    · rw [if_pos first, if_neg (first ▸ elsewhere), first]
      exact here
    · rw [if_neg first]
      by_cases second : position = reader
      · rw [if_pos second, second]
        omega
      · rw [if_neg second]
        exact Nat.zero_le _
  rw [Finset.sum_add_distrib, Finset.sum_ite_eq', Finset.sum_ite_eq',
    if_pos (Finset.mem_range.mpr (node?_lt live)),
    if_pos (Finset.mem_range.mpr (node?_lt inlines.readerLive))] at both
  have single := inlines.single
  omega

theorem usesIn_reader_once :
    Expr.usesIn (fun atom => atom.symbol == node.symbol) other.value.entries ≤ 1 := by
  rw [← usesAt_live inlines.readerLive]
  refine le_trans ?_ (usesOf_eq graph node.symbol ▸ inlines.single)
  exact Finset.single_le_sum (f := graph.usesAt fun atom => atom.symbol == node.symbol)
    (fun _ _ => Nat.zero_le _) (Finset.mem_range.mpr (node?_lt inlines.readerLive))

theorem usesIn_reader_le (wanted : Atom → Bool) :
    Expr.usesIn wanted (other.value.substitute (replaceSymbol node.symbol replacement)).entries ≤
      Expr.uses wanted replacement + Expr.usesIn wanted other.value.entries := by
  refine (usesIn_substitute_le wanted node.symbol replacement other.value.entries).trans ?_
  apply Nat.add_le_add_right
  calc
    _ ≤ 1 * Expr.uses wanted replacement := Nat.mul_le_mul_right _ inlines.usesIn_reader_once
    _ = Expr.uses wanted replacement := Nat.one_mul _

section

variable {first second : Equation κ → Nat}
  (moves : second (other.withValue
    (other.value.substitute (replaceSymbol node.symbol replacement))).equation ≤
      first other.equation + first node.equation)
  (keeps : ∀ {index : Nat} {third : Node κ}, graph.node? index = some third → index ≠ reader →
    second third.equation ≤ first third.equation)

include moves keeps

theorem weightAt_inlined_le (index : Nat) :
    (graph.inlined temporary reader node other replacement).weightAt second index +
        (if index = temporary then first node.equation else 0) ≤
      graph.weightAt first index + (if index = reader then first node.equation else 0) := by
  have now := inlines.node?_inlined index
  by_cases here : index = temporary
  · subst here
    rw [if_pos rfl] at now
    rw [if_pos rfl, if_neg (Ne.symm inlines.differ), weightAt, now, weightAt_live inlines.live]
    simp
  · rw [if_neg (Ne.symm here)] at now
    rw [if_neg here]
    by_cases there : index = reader
    · subst there
      rw [if_pos rfl] at now
      rw [if_pos rfl, weightAt_live now, weightAt_live inlines.readerLive]
      exact moves
    · rw [if_neg (Ne.symm there)] at now
      rw [if_neg there]
      cases live : graph.node? index with
      | none => simp [weightAt, now, live]
      | some third =>
          rw [weightAt_live (now.trans live), weightAt_live live]
          exact keeps live there

/-- Weights add up to no more if the temporary's weight is all that goes over to the reader. -/
theorem sum_inlined_le :
    ((graph.inlined temporary reader node other replacement).equations.map second).sum ≤
      (graph.equations.map first).sum := by
  have length : (graph.inlined temporary reader node other replacement).nodes.length =
      graph.nodes.length := by
    simp [inlined, removeNode, setValue, modifyNode]
  have summed := Finset.sum_le_sum fun index (_ : index ∈ Finset.range graph.nodes.length) =>
    inlines.weightAt_inlined_le moves keeps index
  rw [Finset.sum_add_distrib, Finset.sum_add_distrib, Finset.sum_ite_eq', Finset.sum_ite_eq',
    if_pos (Finset.mem_range.mpr (node?_lt inlines.live)),
    if_pos (Finset.mem_range.mpr (node?_lt inlines.readerLive))] at summed
  rw [sum_equations, sum_equations, length]
  exact Nat.le_of_add_le_add_right summed

end

theorem usesOf_le (symbol : Symbol) :
    (graph.inlined temporary reader node other replacement).usesOf symbol ≤
      graph.usesOf symbol := by
  rw [usesOf, usesOf, total_eq, total_eq, Grouping.sum_map_flatMap, Grouping.sum_map_flatMap]
  refine inlines.sum_inlined_le ?_ fun _ _ => le_rfl
  have fewer := inlines.usesIn_reader_le fun atom => atom.symbol == symbol
  have moved : Expr.usesIn (fun atom => atom.symbol == symbol) node.value.entries =
      Expr.uses (fun atom => atom.symbol == symbol) replacement := by
    rw [inlines.value_eq]
    simp [Tensor.ofExpr]
  rw [Nat.add_comm, ← moved] at fewer
  exact fewer

theorem read_before (orderly : graph.Orderly limit) {read : Symbol}
    (member : read ∈ (other.value.substitute (replaceSymbol node.symbol replacement)).symbols) :
    read ≠ node.symbol ∧ (read ∈ other.reads ∨ read ∈ node.reads) := by
  have lawful := orderly.toLawful
  obtain ⟨atom, among, rfl⟩ := Tensor.mem_symbols.mp member
  obtain ⟨replaced, occurs, put⟩ := Tensor.mem_atoms_substitute among
  by_cases here : replaced.symbol = node.symbol
  · have whole := replacementOf_replaceSymbol here replacement
    have reads : atom.symbol ∈ node.reads := by
      rw [whole] at put
      rw [(lawful.regular inlines.live).reads_eq, inlines.value_eq]
      exact Tensor.mem_symbols.mpr ⟨atom, Tensor.mem_atoms_ofExpr.mpr put, rfl⟩
    refine ⟨?_, Or.inr reads⟩
    intro same
    exact orderly.acyclic.not_reads_self (lawful.nodeOf?_symbol inlines.live) (same ▸ reads)
  · have kept := replacementOf_replaceSymbol_of_ne here replacement
    rw [kept, Expr.occurrences, List.mem_singleton] at put
    subst put
    refine ⟨here, Or.inl ?_⟩
    exact (lawful.regular inlines.readerLive).mem_reads occurs

theorem mem_atoms_inlined {atom : Atom}
    (member : atom ∈ (other.value.substitute (replaceSymbol node.symbol replacement)).atoms) :
    atom ∈ other.value.atoms ∨ atom ∈ node.value.atoms := by
  obtain ⟨replaced, occurs, put⟩ := Tensor.mem_atoms_substitute member
  by_cases here : replaced.symbol = node.symbol
  · rw [replacementOf_replaceSymbol here replacement] at put
    rw [inlines.value_eq]
    exact Or.inr (Tensor.mem_atoms_ofExpr.mpr put)
  · rw [replacementOf_replaceSymbol_of_ne here replacement, Expr.occurrences,
      List.mem_singleton] at put
    exact Or.inl (put ▸ occurs)

theorem issued_value (lawful : graph.Lawful limit) :
    (other.value.substitute (replaceSymbol node.symbol replacement)).Issued limit where
  length_eq := by
    rw [Tensor.length_substitute, Tensor.shape_substitute,
      (lawful.regular inlines.readerLive).value.length_eq]
  numbers := fun atom member => (inlines.mem_atoms_inlined member).elim
    ((lawful.regular inlines.readerLive).value.numbers atom)
    ((lawful.regular inlines.live).value.numbers atom)

theorem placed_inlined (placed : graph.Placed) :
    (graph.inlined temporary reader node other replacement).Placed :=
  (placed.setValue fun atom member => (inlines.mem_atoms_inlined member).elim
    ((placed inlines.readerLive).value atom)
    ((placed inlines.live).value atom)).removeNode temporary

theorem lawful_inlined (lawful : graph.Lawful limit) :
    (graph.inlined temporary reader node other replacement).Lawful limit :=
  (lawful.setValue inlines.readerLive (Tensor.shape_substitute _ _)
    (inlines.issued_value lawful)).removeNode temporary

theorem nodeOf?_inlined (lawful : graph.Lawful limit) (symbol : Symbol) :
    (graph.inlined temporary reader node other replacement).nodeOf? symbol =
      if node.symbol = symbol then none
      else if other.symbol = symbol then
        some (other.withValue (other.value.substitute (replaceSymbol node.symbol replacement)))
      else graph.nodeOf? symbol := by
  have changed := lawful.setValue inlines.readerLive (Tensor.shape_substitute _ _)
    (inlines.issued_value lawful)
  have live : (graph.setValue reader (other.value.substitute (replaceSymbol node.symbol
      replacement))).node? temporary = some node := by
    rw [node?_setValue, if_neg inlines.differ, inlines.live]
  rw [inlined, changed.nodeOf?_removeNode live, lawful.nodeOf?_setValue inlines.readerLive]

theorem isDefined_inlined (lawful : graph.Lawful limit) {symbol : Symbol}
    (elsewhere : symbol ≠ node.symbol) :
    (graph.inlined temporary reader node other replacement).isDefined symbol =
      graph.isDefined symbol := by
  rw [isDefined_eq, isDefined_eq, inlines.nodeOf?_inlined lawful, if_neg (Ne.symm elsewhere)]
  split
  · rename_i here
    rw [← here, lawful.nodeOf?_symbol inlines.readerLive]
    rfl
  · rfl

theorem cases_inlined (lawful : graph.Lawful limit) {symbol : Symbol} {third : Node κ}
    (found : (graph.inlined temporary reader node other replacement).nodeOf? symbol = some third) :
    node.symbol ≠ symbol ∧
      (symbol = other.symbol ∧
          third = other.withValue (other.value.substitute
            (replaceSymbol node.symbol replacement)) ∨
        graph.nodeOf? symbol = some third ∧ node.symbol ∉ third.reads) := by
  rw [inlines.nodeOf?_inlined lawful] at found
  split at found
  · cases found
  rename_i apart
  refine ⟨apart, ?_⟩
  split at found
  · rename_i here
    exact Or.inl ⟨here.symm, (Option.some.inj found).symm⟩
  · rename_i away
    refine Or.inr ⟨found, ?_⟩
    obtain ⟨index, live, rfl⟩ := lawful.nodeOf?_iff.mp found
    apply inlines.unread lawful live
    rintro rfl
    have same := inlines.readerLive
    rw [live, Option.some.injEq] at same
    exact away (congrArg Node.symbol same).symm

theorem orderly_inlined (orderly : graph.Orderly limit) :
    (graph.inlined temporary reader node other replacement).Orderly limit := by
  have lawful := orderly.toLawful
  have ownReads : node.symbol ∈ other.reads := inlines.reads
  refine ⟨inlines.lawful_inlined lawful, ?_, ?_⟩
  · intro symbol third found read member
    have before : read ≠ node.symbol ∧ (graph.isDefined read = true ∨ graph.isInput read = true) := by
      rcases (inlines.cases_inlined lawful found).2 with ⟨_, rfl⟩ | ⟨old, apart⟩
      · obtain ⟨apart, reads⟩ := inlines.read_before orderly member
        refine ⟨apart, ?_⟩
        rcases reads with reads | reads
        · exact orderly.bound _ _ (lawful.nodeOf?_symbol inlines.readerLive) read reads
        · exact orderly.bound _ _ (lawful.nodeOf?_symbol inlines.live) read reads
      · exact ⟨fun same => apart (same ▸ member), orderly.bound symbol third old read member⟩
    rw [inlines.isDefined_inlined lawful before.1]
    exact before.2
  · apply orderly.acyclic.of_reads
    rintro read symbol ⟨third, found, member, defined⟩
    have temporaryDefined : graph.isDefined node.symbol = true :=
      isDefined_iff.mpr ⟨node, lawful.nodeOf?_symbol inlines.live⟩
    rcases (inlines.cases_inlined lawful found).2 with ⟨rfl, rfl⟩ | ⟨old, apart⟩
    · obtain ⟨apart, reads⟩ := inlines.read_before orderly member
      rw [inlines.isDefined_inlined lawful apart] at defined
      rcases reads with reads | reads
      · exact TransGen.single ⟨other, lawful.nodeOf?_symbol inlines.readerLive, reads, defined⟩
      · exact TransGen.tail
          (TransGen.single ⟨node, lawful.nodeOf?_symbol inlines.live, reads, defined⟩)
          ⟨other, lawful.nodeOf?_symbol inlines.readerLive, inlines.reads, temporaryDefined⟩
    · rw [inlines.isDefined_inlined lawful fun same => apart (same ▸ member)] at defined
      exact TransGen.single ⟨third, old, member, defined⟩

theorem rewritten (orderly : graph.Orderly more) (le : limit ≤ more)
    (fresh : limit ≤ node.symbol.number) :
    Rewritten limit more graph (graph.inlined temporary reader node other replacement) := by
  refine ⟨le, inlines.orderly_inlined orderly, fun _ => inlines.placed_inlined, ?_, rfl, rfl, rfl, rfl,
    rfl⟩
  intro symbol old
  apply inlines.isDefined_inlined orderly.toLawful
  rintro rfl
  omega

theorem content?_inlined (lawful : graph.Lawful limit) {symbol : Symbol}
    (elsewhere : symbol ≠ node.symbol) :
    (graph.inlined temporary reader node other replacement).content? symbol =
      if other.symbol = symbol then
        some (other.value.substitute (replaceSymbol node.symbol replacement))
      else graph.content? symbol := by
  rw [content?, inlines.nodeOf?_inlined lawful, if_neg (Ne.symm elsewhere)]
  by_cases here : other.symbol = symbol
  · rw [if_pos here, if_pos here]
    rfl
  · rw [if_neg here, if_neg here]
    rfl

theorem content_unread (lawful : graph.Lawful more)
    (aliases : ∀ {symbol : Symbol} {target : Tensor κ}, graph.aliases.find? symbol = some target →
      ∃ other, Stands limit symbol target other)
    (fresh : limit ≤ node.symbol.number) {symbol : Symbol} {tensor : Tensor κ}
    (found : graph.content? symbol = some tensor) (away : other.symbol ≠ symbol) :
    ∀ atom ∈ tensor.atoms, atom.symbol ≠ node.symbol := by
  intro atom member same
  cases defined : graph.nodeOf? symbol with
  | some third =>
      rw [content?, defined, Option.some.injEq] at found
      subst found
      obtain ⟨index, live, rfl⟩ := lawful.nodeOf?_iff.mp defined
      have elsewhere : index ≠ reader := by
        rintro rfl
        have both := inlines.readerLive
        rw [live, Option.some.injEq] at both
        exact away (congrArg Node.symbol both).symm
      apply inlines.unread lawful live elsewhere
      rw [(lawful.regular live).reads_eq]
      exact Tensor.mem_symbols.mpr ⟨atom, member, same⟩
  | none =>
      rw [content?, defined] at found
      obtain ⟨target, stands⟩ := aliases found
      rw [stands.target_eq] at member
      have number := stands.issued.2
      rw [← (Tensor.mem_atoms_ofSymbol member).1, same] at number
      omega

variable [Exact κ]

theorem keeps_reader {environment : Environment} {index : Nat} {number : ℝ}
    (means : other.value.MeansAt (environment.withDefinition node.symbol node.value) index number) :
    (other.value.substitute (replaceSymbol node.symbol replacement)).MeansAt environment index
      number := by
  refine means.substitute fun atom _ value known => ?_
  rw [Environment.read] at known
  by_cases here : atom.symbol = node.symbol
  · have whole := replacementOf_replaceSymbol here replacement
    rw [here, Environment.withDefinition_self, inlines.value_eq] at known
    obtain ⟨definition, at_, defined⟩ := known
    have only : definition = replacement :=
      List.mem_singleton.mp (List.mem_of_getElem? (Tensor.entryAt_eq_ok.mp at_).2)
    rw [whole, ← only]
    exact defined
  · have kept := replacementOf_replaceSymbol_of_ne here replacement
    rw [Environment.withDefinition_of_ne here] at known
    rw [kept, Expr.means_atom, Environment.read, known]

theorem refines (orderly : graph.Orderly more)
    (aliases : ∀ {symbol : Symbol} {target : Tensor κ}, graph.aliases.find? symbol = some target →
      ∃ other, Stands limit symbol target other)
    (fresh : limit ≤ node.symbol.number) :
    Refines (fun symbol => symbol.number < limit) graph
      (graph.inlined temporary reader node other replacement) := by
  have lawful := orderly.toLawful
  have found := lawful.nodeOf?_symbol inlines.live
  intro inputs environment solves
  refine ⟨environment.withDefinition node.symbol node.value, ⟨?_, ?_⟩, ?_⟩
  · intro symbol index isInput
    rw [Environment.withDefinition_of_ne]
    · exact solves.input index isInput
    · rintro rfl
      have noInput := lawful.noInput found
      rw [isInput] at noInput
      cases noInput
  · intro symbol index number tensor noInput content means
    by_cases here : symbol = node.symbol
    · subst here
      rw [lawful.content?_live inlines.live, Option.some.injEq] at content
      subst content
      rw [Environment.withDefinition_self]
      refine means.mono fun atom member value known => ?_
      rwa [Environment.read, Environment.withDefinition_of_ne] at known
      intro same
      apply orderly.acyclic.not_reads_self found
      rw [(lawful.regular inlines.live).reads_eq]
      exact Tensor.mem_symbols.mpr ⟨atom, member, same⟩
    · rw [Environment.withDefinition_of_ne here]
      have after := inlines.content?_inlined lawful here
      by_cases reader : other.symbol = symbol
      · subst reader
        rw [lawful.content?_live inlines.readerLive, Option.some.injEq] at content
        subst content
        rw [if_pos rfl] at after
        exact solves.content noInput after (inlines.keeps_reader means)
      · rw [if_neg reader, content] at after
        refine solves.content noInput after (means.mono fun atom member value known => ?_)
        have away := inlines.content_unread lawful aliases fresh content reader atom member
        rwa [Environment.read, Environment.withDefinition_of_ne away] at known
  · intro symbol old index value known
    rwa [Environment.withDefinition_of_ne] at known
    rintro rfl
    omega

end Inlines

theorem modifyNode_eq_setValue {index : Nat} {node : Node κ} (live : graph.node? index = some node)
    (value : Node κ → Tensor κ) :
    graph.modifyNode index (fun other => other.withValue (value other)) =
      graph.setValue index (value node) := by
  have nodes : graph.nodes.modify index (fun other => other.withValue (value other)) =
      graph.nodes.modify index fun other => other.withValue (value node) := by
    apply List.ext_getElem?
    intro position
    rw [List.getElem?_modify, List.getElem?_modify]
    by_cases here : index = position
    · subst here
      rw [(node?_eq_some.mp live).1]
      simp
    · simp [here]
  rw [modifyNode, nodes]
  rfl

theorem inlineOne_cases (lawful : graph.Lawful more) {temporary : Nat} {node : Node κ}
    (live : graph.node? temporary = some node) (single : graph.usesOf node.symbol ≤ 1)
    (count : Nat) :
    (inlineOne (graph, count) temporary).1 = graph ∨
      ∃ reader other replacement, Inlines graph temporary reader node other replacement ∧
        (inlineOne (graph, count) temporary).1 =
          graph.inlined temporary reader node other replacement := by
  unfold inlineOne
  simp only [live]
  split
  · exact Or.inl rfl
  rename_i replacement whole
  split
  · exact Or.inl rfl
  rename_i reader found
  obtain ⟨other, readerLive⟩ := mem_liveIndices.mp (List.mem_of_find?_eq_some found)
  have wanted := List.find?_some found
  rw [Bool.and_eq_true, bne_iff_ne, readerLive] at wanted
  refine Or.inr ⟨reader, other, replacement,
    ⟨live, (lawful.regular live).value.eq_ofExpr whole, readerLive, wanted.1, ?_, single⟩, ?_⟩
  · simpa using wanted.2
  · rw [inlined, ← modifyNode_eq_setValue readerLive fun other : Node κ =>
      other.value.substitute (replaceSymbol node.symbol replacement)]

/-- Distinct new symbols that are used at most once, in a graph whose other symbols are old. -/
structure Waiting (limit more : Nat) (graph : Graph κ) (remaining : List Nat) : Prop where
  le : limit ≤ more
  orderly : graph.Orderly more
  aliases : ∀ {symbol : Symbol} {target : Tensor κ}, graph.aliases.find? symbol = some target →
    ∃ other, Stands limit symbol target other
  unique : remaining.Nodup
  fresh : ∀ index ∈ remaining, ∃ node, graph.node? index = some node ∧
    limit ≤ node.symbol.number ∧ graph.usesOf node.symbol ≤ 1

theorem Waiting.tail {head : Nat} {tail : List Nat}
    (waiting : Waiting limit more graph (head :: tail)) : Waiting limit more graph tail :=
  ⟨waiting.le, waiting.orderly, waiting.aliases, (List.nodup_cons.mp waiting.unique).2,
    fun index member => waiting.fresh index (List.mem_cons_of_mem _ member)⟩

theorem Waiting.inlined {temporary reader : Nat} {node other : Node κ} {replacement : Expr κ}
    {tail : List Nat} (waiting : Waiting limit more graph (temporary :: tail))
    (inlines : Inlines graph temporary reader node other replacement) :
    Waiting limit more (graph.inlined temporary reader node other replacement) tail := by
  obtain ⟨absent, rest⟩ := List.nodup_cons.mp waiting.unique
  refine ⟨waiting.le, inlines.orderly_inlined waiting.orderly, waiting.aliases, rest, ?_⟩
  intro index member
  obtain ⟨third, live, fresh, single⟩ := waiting.fresh index (List.mem_cons_of_mem _ member)
  have now := inlines.node?_inlined index
  have apart : temporary ≠ index := by
    rintro rfl
    exact absent member
  rw [if_neg apart] at now
  split at now
  · rename_i here
    subst here
    rw [inlines.readerLive, Option.some.injEq] at live
    subst live
    exact ⟨_, now, fresh, (inlines.usesOf_le other.symbol).trans single⟩
  · exact ⟨third, now.trans live, fresh, (inlines.usesOf_le third.symbol).trans single⟩

theorem Waiting.step {temporary : Nat} {tail : List Nat}
    (waiting : Waiting limit more graph (temporary :: tail)) (count : Nat) :
    Waiting limit more (inlineOne (graph, count) temporary).1 tail ∧
      Rewritten limit more graph (inlineOne (graph, count) temporary).1 := by
  obtain ⟨node, live, fresh, single⟩ := waiting.fresh temporary List.mem_cons_self
  rcases inlineOne_cases waiting.orderly.toLawful live single count with
    same | ⟨reader, other, replacement, inlines, same⟩
  · rw [same]
    exact ⟨waiting.tail, (Rewritten.refl waiting.orderly).weaken waiting.le⟩
  · rw [same]
    exact ⟨waiting.inlined inlines, inlines.rewritten waiting.orderly waiting.le fresh⟩

theorem Waiting.step_refines [Exact κ] {temporary : Nat} {tail : List Nat}
    (waiting : Waiting limit more graph (temporary :: tail)) (count : Nat) :
    Refines (fun symbol => symbol.number < limit) graph (inlineOne (graph, count) temporary).1 := by
  obtain ⟨node, live, fresh, single⟩ := waiting.fresh temporary List.mem_cons_self
  rcases inlineOne_cases waiting.orderly.toLawful live single count with
    same | ⟨reader, other, replacement, inlines, same⟩
  · rw [same]
    exact Refines.refl _ graph
  · rw [same]
    exact inlines.refines waiting.orderly waiting.aliases fresh

theorem foldl_inlineOne (remaining : List Nat) {graph : Graph κ}
    (waiting : Waiting limit more graph remaining) (count : Nat) :
    Rewritten limit more graph (remaining.foldl inlineOne (graph, count)).1 := by
  induction remaining generalizing graph count with
  | nil => exact (Rewritten.refl waiting.orderly).weaken waiting.le
  | cons head tail ih =>
      obtain ⟨later, first⟩ := waiting.step count
      rw [List.foldl_cons]
      rcases same : inlineOne (graph, count) head with ⟨after, inlinedCount⟩
      rw [same] at later first
      exact first.trans (ih later inlinedCount)

theorem foldl_inlineOne_refines [Exact κ] (remaining : List Nat) {graph : Graph κ}
    (waiting : Waiting limit more graph remaining) (count : Nat) :
    Refines (fun symbol => symbol.number < limit) graph
      (remaining.foldl inlineOne (graph, count)).1 := by
  induction remaining generalizing graph count with
  | nil => exact Refines.refl _ graph
  | cons head tail ih =>
      obtain ⟨later, _⟩ := waiting.step count
      have first := waiting.step_refines count
      rw [List.foldl_cons]
      rcases same : inlineOne (graph, count) head with ⟨after, inlinedCount⟩
      rw [same] at later first
      exact first.trans (ih later inlinedCount)

section

variable {supply : SymbolSupply}

theorem waiting_nameRepeated (orderly : graph.Orderly supply.next) :
    Waiting supply.next (graph.nameRepeated supply).2.2.next (graph.nameRepeated supply).1
      (((graph.nameRepeated supply).2.1.filter fun index =>
        ((graph.nameRepeated supply).1.symbolAt? index).any fun symbol =>
          (graph.nameRepeated supply).1.usesOf symbol = 1).reverse) := by
  have named := nameRepeated_named orderly
  have rewritten := named.rewritten orderly
  refine ⟨named.le, rewritten.orderly, ?_, ?_, ?_⟩
  · intro symbol target found
    rw [rewritten.aliases] at found
    exact orderly.aliases found
  · exact List.nodup_reverse.mpr (named.unique.filter _)
  · intro index member
    obtain ⟨among, used⟩ := List.mem_filter.mp (List.mem_reverse.mp member)
    obtain ⟨node, live, fresh⟩ := named.created index among
    refine ⟨node, live, fresh, ?_⟩
    rw [symbolAt?_of_node? live, Option.any_some, decide_eq_true_eq] at used
    exact used.le

theorem shareRepeated_rewritten (orderly : graph.Orderly supply.next) :
    Rewritten supply.next (graph.shareRepeated supply).2.2.next graph
      (graph.shareRepeated supply).1 :=
  ((nameRepeated_named orderly).rewritten orderly).trans
    (foldl_inlineOne _ (waiting_nameRepeated orderly) 0)

theorem shareRepeated_refines [Exact κ] (orderly : graph.Orderly supply.next) :
    Refines (fun symbol => symbol.number < supply.next) graph (graph.shareRepeated supply).1 :=
  ((nameRepeated_named orderly).refines orderly _).trans
    (foldl_inlineOne_refines _ (waiting_nameRepeated orderly) 0)

end

end Graph

end Mechanism
