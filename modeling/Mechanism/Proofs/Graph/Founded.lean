import Mechanism.Proofs.Graph.Answers
import Mechanism.Proofs.Graph.Edits

/-!
One definition more: what does not depend on the new symbol depends on nothing new, and is answered
as before. In every session that can be reached, symbols with an answer do not depend on themselves,
and aliases are not defined.
-/

open Relation (ReflTransGen TransGen)

namespace Mechanism.Graph

section

variable {κ : Type} [Scalar κ] {limit more : Nat} {graph before after : Graph κ}
  {symbol read reader other : Symbol}

theorem Reads.readBy (reads : graph.Reads read reader) : graph.ReadBy read reader := by
  obtain ⟨node, found, member, _⟩ := reads
  exact ⟨node, found, member⟩

theorem acyclicBelow_of_acc (founded : Acc graph.Reads symbol) : graph.AcyclicBelow symbol := by
  intro other below loop
  have inner : Acc graph.Reads other := by
    induction below with
    | refl => exact founded
    | tail _ last ih => exact ih (founded.inv last)
  have looped := inner.transGen
  clear below inner
  induction looped with
  | intro other _ ih => exact ih other loop loop

/-- The second graph has one definition more, and its inputs and their values are the same. -/
structure Adds (symbol : Symbol) (before after : Graph κ) : Prop where
  undefined : before.isDefined symbol = false
  nodes : ∀ other, other ≠ symbol → after.nodeOf? other = before.nodeOf? other
  inputs : after.inputs = before.inputs
  bindings : after.store.bindings = before.store.bindings

/-- The second symbol is another one, and depends on the first one in no way. -/
def Free (graph : Graph κ) (symbol other : Symbol) : Prop := ¬ReflTransGen graph.ReadBy symbol other

theorem Free.ne (free : graph.Free symbol other) : other ≠ symbol := by
  rintro rfl
  exact free ReflTransGen.refl

theorem Free.of_readBy (free : graph.Free symbol reader) (reads : graph.ReadBy read reader) :
    graph.Free symbol read :=
  fun depends => free (depends.tail reads)

namespace Adds

theorem isDefined_eq (adds : Adds symbol before after) (differs : other ≠ symbol) :
    after.isDefined other = before.isDefined other := by
  rw [Graph.isDefined_eq, Graph.isDefined_eq, adds.nodes other differs]

theorem readBy (adds : Adds symbol before after) (reads : before.ReadBy read reader) :
    after.ReadBy read reader := by
  obtain ⟨node, found, member⟩ := reads
  refine ⟨node, (adds.nodes reader ?_).trans found, member⟩
  rintro rfl
  exact Bool.false_ne_true (adds.undefined.symm.trans (isDefined_iff.mpr ⟨node, found⟩))

theorem free (adds : Adds symbol before after) (differs : other ≠ symbol)
    (independent : ¬TransGen after.ReadBy symbol other) : before.Free symbol other := by
  intro depends
  rcases ReflTransGen.cases_head_iff.mp depends with same | ⟨next, reads, rest⟩
  · exact differs same.symm
  · exact independent (TransGen.mono (fun _ _ reads => adds.readBy reads) _ _
      (TransGen.head' reads rest))

theorem reads (adds : Adds symbol before after) (free : before.Free symbol reader)
    (reads : after.Reads read reader) : before.Reads read reader := by
  obtain ⟨node, found, member, defined⟩ := reads
  rw [adds.nodes reader free.ne] at found
  have below := free.of_readBy ⟨node, found, member⟩
  exact ⟨node, found, member, by rwa [← adds.isDefined_eq below.ne]⟩

theorem acc (adds : Adds symbol before after) (founded : Acc before.Reads other)
    (free : before.Free symbol other) : Acc after.Reads other := by
  induction founded with
  | intro other _ ih =>
      constructor
      intro read reads
      have old := adds.reads free reads
      exact ih read old (free.of_readBy old.readBy)

end Adds

variable {session later : Session κ}

theorem current_congr {atom : Atom} (inputs : later.graph.inputs = session.graph.inputs)
    (bindings : later.graph.store.bindings = session.graph.store.bindings)
    (defined : later.graph.isDefined atom.symbol = session.graph.isDefined atom.symbol)
    (answers : session.graph.isDefined atom.symbol = true →
      answer later atom.symbol = answer session atom.symbol) :
    current later atom = current session atom := by
  have input : later.graph.isInput atom.symbol = session.graph.isInput atom.symbol := by
    rw [isInput, isInput, inputs]
  rw [current, current, input, defined, Store.binding?, Store.binding?, bindings]
  split
  · rfl
  · split
    · rename_i isDefined
      rw [answers isDefined]
    · rfl

namespace Adds

variable (adds : Adds symbol session.graph later.graph) (valid : session.graph.Valid limit)
  (laterValid : later.graph.Valid more)

include adds valid laterValid

theorem answer_eq (founded : Acc session.graph.Reads other) (free : session.graph.Free symbol other)
    (defined : session.graph.isDefined other = true) :
    answer later other = answer session other := by
  induction founded with
  | intro other below ih =>
      have founded : Acc session.graph.Reads other := ⟨other, below⟩
      obtain ⟨node, found⟩ := isDefined_iff.mp defined
      have still : later.graph.nodeOf? other = some node := by rw [adds.nodes other free.ne, found]
      rw [Graph.answer_eq valid found (acyclicBelow_of_acc founded),
        Graph.answer_eq laterValid still (acyclicBelow_of_acc (adds.acc founded free))]
      congr 1
      apply Tensor.substitute_congr
      intro atom member
      have reads := (valid.toLawful.regular_of_nodeOf? found).mem_reads member
      have inner := free.of_readBy ⟨node, found, reads⟩
      apply current_congr adds.inputs adds.bindings (adds.isDefined_eq inner.ne)
      intro live
      exact ih atom.symbol ⟨node, found, reads, live⟩ inner live

theorem current_eq {atom : Atom} (free : session.graph.Free symbol atom.symbol)
    (founded : session.graph.isDefined atom.symbol = true → Acc session.graph.Reads atom.symbol) :
    current later atom = current session atom :=
  current_congr adds.inputs adds.bindings (adds.isDefined_eq free.ne)
    fun live => adds.answer_eq valid laterValid (founded live) free live

end Adds

theorem adds_addEquation (lawful : graph.Lawful limit) {name : String} {value : Tensor κ}
    {categories : CategorySet} (undefined : graph.isDefined symbol = false)
    (added : Graph.addEquation name symbol value categories graph = .ok after) :
    Adds symbol graph after := by
  obtain ⟨_, _, _, rfl⟩ := addEquation_new undefined added
  exact ⟨undefined,
    fun other differs => (lawful.nodeOf?_appendNode rfl other).trans (if_neg (Ne.symm differs)),
    rfl, bindings_foldl_evict _ _⟩

theorem nodeOf?_addEquation (lawful : graph.Lawful limit) {name : String} {value : Tensor κ}
    {categories : CategorySet} (undefined : graph.isDefined symbol = false)
    (added : Graph.addEquation name symbol value categories graph = .ok after) :
    after.nodeOf? symbol = some (Node.ofEquation
      ⟨name, symbol, graph.resolveAliases value, categories⟩ value) := by
  obtain ⟨_, _, _, rfl⟩ := addEquation_new undefined added
  exact (lawful.nodeOf?_appendNode rfl symbol).trans (if_pos rfl)

end

open Mechanism.Graph.Action

variable {κ : Type} [Scalar κ] {limit more : Nat} {graph before after : Graph κ}
  {simplifier : Simplifier κ} {session later : Session κ}

theorem Founded.mono {store rest : Store κ} (founded : before.Founded store)
    (cached : ∀ symbol, rest.isCached symbol = true → store.isCached symbol = true)
    (reads : ∀ read reader, after.Reads read reader → before.Reads read reader) :
    after.Founded rest :=
  fun symbol isCached => Subrelation.accessible (fun {read reader} => reads read reader)
    (founded symbol (cached symbol isCached))

theorem isCached_foldl_evict {symbols : List Symbol} {store : Store κ} {symbol : Symbol}
    (cached : (symbols.foldl Store.evict store).isCached symbol = true) :
    symbol ∉ symbols ∧ store.isCached symbol = true := by
  rw [Store.isCached_iff, cached?_foldl_evict] at cached
  split at cached
  · obtain ⟨_, missing⟩ := cached
    cases missing
  · rename_i kept
    exact ⟨kept, Store.isCached_iff.mpr cached⟩

theorem Founded.addEquation (founded : graph.Founded graph.store) (valid : graph.Valid limit)
    {name : String} {symbol : Symbol} {value : Tensor κ} {categories : CategorySet}
    (issued : symbol.number < limit) (valueIssued : value.Issued limit)
    (added : Graph.addEquation name symbol value categories graph = .ok after) :
    after.Founded after.store := by
  have afterValid := valid.addEquation issued valueIssued added
  rcases addEquation_ok added with ⟨_, rfl⟩ | ⟨_, _, _, undefined, rfl⟩
  · exact founded
  · intro other cached
    obtain ⟨kept, old⟩ := isCached_foldl_evict cached
    have differs : other ≠ symbol := by
      rintro rfl
      exact Bool.false_ne_true (undefined.symm.trans (valid.coherent.isDefined old))
    have adds := adds_addEquation valid.toLawful undefined added
    refine adds.acc (founded other old) (adds.free differs fun depends => kept ?_)
    exact (mem_dependents (afterValid.toLawful.congr rfl rfl rfl rfl) afterValid.linked).mpr depends

theorem Founded.reduce (founded : graph.Founded graph.store) {kept : CategorySet}
    {reduction : Reduction} (reduced : Graph.reduce graph kept = .ok (reduction, after)) :
    after.Founded after.store := by
  obtain ⟨needed, indices, closed, _, rest, rfl⟩ := reduce_eq_ok reduced
  have dropped := foldl_dropNode_dropped indices graph
  refine founded.mono (fun symbol cached => ?_) fun read reader reads => ?_
  · have old : (indices.foldl dropNode graph).store.isCached symbol = true := cached
    rw [dropped.store] at old
    exact (isCached_foldl_evict old).2
  · obtain ⟨node, found, member, defined⟩ := reads
    obtain ⟨index, defines, live, _⟩ := (dropped.nodeOf?_iff rest).mp found
    obtain ⟨other, readLive⟩ := Option.isSome_iff_exists.mp defined
    refine ⟨node, nodeOf?_eq_some.mpr ⟨index, defines, live⟩, member, ?_⟩
    rw [isDefined, ((dropped.liveIndex?_iff rest).mp readLive).1]
    rfl

theorem Founded.change (change : Change session later) (fit : Fit simplifier session)
    (founded : session.graph.Founded session.graph.store) :
    later.graph.Founded later.graph.store := by
  cases change with
  | issue | relink => exact founded
  | input _ added => rcases addInput_ok added with rfl | ⟨_, rfl⟩ <;> exact founded
  | bind bound =>
      obtain ⟨_, rfl⟩ := bindInput_ok bound
      exact founded.mono (fun _ cached => (isCached_foldl_evict cached).2) fun _ _ reads => reads
  | define issued valueIssued added =>
      exact founded.addEquation fit.valid issued valueIssued added
  | evaluate evaluates =>
      cases evaluates with
      | refresh found =>
          exact (refresh_visited fit.valid.toLawful found fit.valid.coherent).founded founded

theorem Attainable.founded (modest : simplifier.Modest) (attainable : Attainable simplifier session) :
    session.graph.Founded session.graph.store := by
  refine attainable.invariant (fun session => session.graph.Founded session.graph.store) modest ?_
    (fun change fit founded => founded.change change fit) ?_
    (fun _ founded reduced => founded.reduce reduced)
  · intro settings supply symbol cached
    cases cached
  · intro session levels _ _ _ _ symbol cached
    cases cached

theorem acc_of_answer (valid : session.graph.Valid limit)
    (founded : session.graph.Founded session.graph.store) {symbol : Symbol}
    (defined : session.graph.isDefined symbol = true) {value : Tensor κ}
    (answered : answer session symbol = .ok value) : Acc session.graph.Reads symbol := by
  obtain ⟨node, node_eq⟩ := isDefined_iff.mp defined
  obtain ⟨index, found, _⟩ := nodeOf?_eq_some.mp node_eq
  have visited := refresh_visited valid.toLawful found valid.coherent
  rw [answer, perform_valueOf,
    perform_valueWith_defined _ (valid.toLawful.noInput node_eq) found] at answered
  refine visited.founded founded symbol (visited.cached ?_ _ (List.mem_singleton_self _) defined)
  cases met : (session.graph.refresh symbol index).2 with
  | none => rfl
  | some cycle =>
      rw [met] at answered
      cases answered

def Retired (graph : Graph κ) : Prop :=
  ∀ symbol target, graph.aliases.find? symbol = some target → graph.isDefined symbol = false

theorem Retired.of_subset (retired : before.Retired) (aliases : after.aliases = before.aliases)
    (defined : ∀ symbol, after.isDefined symbol = true → before.isDefined symbol = true) :
    after.Retired := by
  intro symbol target known
  rw [aliases] at known
  rw [← Bool.not_eq_true]
  intro live
  exact Bool.false_ne_true ((retired symbol target known).symm.trans (defined symbol live))

theorem Retired.edit (edit : Edit limit more before after) (lawful : before.Lawful more)
    (retired : before.Retired) : after.Retired := by
  cases edit with
  | number | relink => exact retired
  | revalue live =>
      exact retired.of_subset rfl fun symbol defined =>
        lawful.isDefined_setValue live _ symbol ▸ defined
  | name _ _ _ _ noAlias =>
      intro symbol target known
      have old : before.aliases.find? symbol = some target := known
      refine (isDefined_eq _ symbol).trans ?_
      rw [appendTemporary_eq, lawful.nodeOf?_appendNode rfl, if_neg, ← isDefined_eq]
      · exact retired symbol target old
      · rintro rfl
        cases old.symm.trans noAlias
  | inline live =>
      refine retired.of_subset rfl fun symbol defined => ?_
      rw [isDefined_eq, lawful.nodeOf?_removeNode live] at defined
      split at defined
      · cases defined
      · rwa [isDefined_eq]
  | rename live _ stands =>
      intro symbol target known
      have removed := lawful.nodeOf?_removeNode live symbol
      refine (isDefined_eq _ symbol).trans ?_
      refine (congrArg Option.isSome removed).trans ?_
      rw [Table.find?_insert] at known
      split at known
      · rename_i here
        rw [if_pos here]
        rfl
      · rename_i differs
        rw [if_neg differs, ← isDefined_eq]
        exact retired symbol target known

theorem Retired.change (change : Change session later) (fit : Fit simplifier session)
    (retired : session.graph.Retired) : later.graph.Retired := by
  cases change with
  | issue | relink => exact retired
  | input _ added => rcases addInput_ok added with rfl | ⟨_, rfl⟩ <;> exact retired
  | bind bound =>
      obtain ⟨_, rfl⟩ := bindInput_ok bound
      exact retired
  | evaluate evaluates =>
      cases evaluates with
      | refresh => exact retired
  | @define name symbol value categories graph _ _ added =>
      rcases addEquation_ok added with ⟨_, rfl⟩ | ⟨_, _, _, undefined, rfl⟩
      · exact retired
      · intro other target known
        have old := Table.find?_erase session.graph.aliases symbol other
        rw [show (session.graph.aliases.erase symbol).find? other = some target from known] at old
        split at old
        · cases old
        · rename_i differs
          have adds := adds_addEquation fit.valid.toLawful undefined added
          rw [adds.isDefined_eq (Ne.symm differs)]
          exact retired other target old.symm

theorem Retired.optimized {supply : SymbolSupply} (retired : graph.Retired)
    (orderly : graph.Orderly supply.next) (modest : graph.simplifier.Modest) :
    (graph.optimized supply).graph.Retired :=
  (optimized_edits orderly modest).invariant
    (orderly.toLawful.mono (optimized_improved orderly modest).le)
    (fun edit lawful retired => retired.edit edit lawful) retired

theorem Attainable.retired (modest : simplifier.Modest) (attainable : Attainable simplifier session) :
    session.graph.Retired := by
  refine attainable.invariant (fun session => session.graph.Retired) modest (fun _ _ => nofun)
    (fun change fit retired => retired.change change fit) ?_ ?_
  · intro session levels fit retired orderly _
    have same : session.graph.relink.Retired := retired
    exact same.optimized orderly.relink (fit.simplifier_eq ▸ modest)
  · intro session kept reduction graph _ retired reduced
    obtain ⟨needed, indices, _, _, rest, rfl⟩ := reduce_eq_ok reduced
    have dropped := foldl_dropNode_dropped indices session.graph
    refine retired.of_subset dropped.aliases fun symbol defined => ?_
    obtain ⟨index, live⟩ := Option.isSome_iff_exists.mp defined
    rw [isDefined, ((dropped.liveIndex?_iff rest).mp live).1]
    rfl

end Mechanism.Graph
