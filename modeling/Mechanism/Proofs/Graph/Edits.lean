import Mechanism.Proofs.Graph.Building

/-!
The passes of a build as chains of small changes. What every such change keeps, all passes keep.
-/

open Relation (ReflTransGen)

namespace Mechanism.Graph

variable {κ : Type} [Scalar κ] {limit more : Nat} {graph before after : Graph κ}

/-- A change that a pass makes. Symbols from before the passes have numbers below the first limit,
and all symbols that are read have numbers below the second one. -/
inductive Edit (limit more : Nat) : Graph κ → Graph κ → Prop where
  | number {graph : Graph κ} (next : Nat) : Edit limit more graph { graph with nextTemporary := next }
  | relink {graph : Graph κ} : Edit limit more graph graph.relink
  | revalue {graph : Graph κ} {index : Nat} {node : Node κ} {value : Tensor κ}
      (live : graph.node? index = some node) (shape : value.shape = node.value.shape)
      (issued : value.Issued more) : Edit limit more graph (graph.setValue index value)
  | name {graph : Graph κ} {temporary : Symbol × Expr κ} (fresh : limit ≤ temporary.1.number)
      (regular : (temporaryNode temporary).Regular more)
      (undefined : graph.isDefined temporary.1 = false)
      (noInput : graph.isInput temporary.1 = false)
      (noAlias : graph.aliases.find? temporary.1 = none) :
      Edit limit more graph (graph.appendTemporary temporary)
  | inline {graph : Graph κ} {index : Nat} {node : Node κ} (live : graph.node? index = some node)
      (fresh : limit ≤ node.symbol.number) : Edit limit more graph (graph.removeNode index)
  | rename {graph : Graph κ} {index : Nat} {node : Node κ} {last : Symbol}
      (live : graph.node? index = some node)
      (intermediate : node.equation.categories.isOnly .variable = true)
      (stands : Stands more node.symbol (.ofSymbol last : Tensor κ) last) :
      Edit limit more graph { graph.removeNode index with
        aliases := graph.aliases.insert node.symbol (.ofSymbol last) }

def Edits (limit more : Nat) : Graph κ → Graph κ → Prop := ReflTransGen (Edit limit more)

theorem Stands.mono {symbol other : Symbol} {target : Tensor κ}
    (stands : Stands limit symbol target other) (le : limit ≤ more) :
    Stands more symbol target other :=
  ⟨stands.target_eq, stands.shape_eq, stands.issued.1.trans_le le, stands.issued.2.trans_le le⟩

theorem Edit.mono {middle : Nat} (edit : Edit limit middle before after) (le : middle ≤ more) :
    Edit limit more before after := by
  cases edit with
  | number next => exact Edit.number next
  | relink => exact Edit.relink
  | revalue live shape issued => exact Edit.revalue live shape (issued.mono le)
  | name fresh regular undefined noInput noAlias =>
      exact Edit.name fresh (regular.mono le) undefined noInput noAlias
  | inline live fresh => exact Edit.inline live fresh
  | rename live intermediate stands => exact Edit.rename live intermediate (stands.mono le)

theorem Edits.mono {middle : Nat} (edits : Edits limit middle before after) (le : middle ≤ more) :
    Edits limit more before after :=
  ReflTransGen.mono (fun _ _ edit => edit.mono le) _ _ edits

theorem Edit.weaken {middle : Nat} (edit : Edit middle more before after) (le : limit ≤ middle) :
    Edit limit more before after := by
  cases edit with
  | number next => exact Edit.number next
  | relink => exact Edit.relink
  | revalue live shape issued => exact Edit.revalue live shape issued
  | name fresh regular undefined noInput noAlias =>
      exact Edit.name (le.trans fresh) regular undefined noInput noAlias
  | inline live fresh => exact Edit.inline live (le.trans fresh)
  | rename live intermediate stands => exact Edit.rename live intermediate stands

theorem Edits.weaken {middle : Nat} (edits : Edits middle more before after) (le : limit ≤ middle) :
    Edits limit more before after :=
  ReflTransGen.mono (fun _ _ edit => edit.weaken le) _ _ edits

theorem Edit.lawful (edit : Edit limit more before after) (lawful : before.Lawful more) :
    after.Lawful more := by
  cases edit with
  | number next => exact lawful.congr rfl rfl rfl rfl
  | relink => exact lawful.congr rfl rfl rfl rfl
  | revalue live shape issued => exact lawful.setValue live shape issued
  | name _ regular undefined noInput _ => exact lawful.appendNode rfl regular undefined noInput
  | inline live _ => exact lawful.removeNode _
  | @rename index node last live _ stands =>
      have removed := lawful.removeNode index
      refine ⟨removed.found, removed.current, removed.regular, removed.apart, removed.inputs, ?_⟩
      intro symbol target known
      rw [Table.find?_insert] at known
      split at known
      · rename_i here
        cases known
        exact ⟨last, here ▸ stands⟩
      · exact lawful.aliases known

theorem Edits.invariant {property : Graph κ → Prop} (edits : Edits limit more before after)
    (lawful : before.Lawful more)
    (each : ∀ {first second : Graph κ}, Edit limit more first second → first.Lawful more →
      property first → property second) (start : property before) : property after := by
  have both : after.Lawful more ∧ property after := by
    induction edits with
    | refl => exact ⟨lawful, start⟩
    | tail _ last ih => exact ⟨last.lawful ih.1, each last ih.1 ih.2⟩
  exact both.2

theorem simplifyOne_edits (lawful : graph.Lawful limit) (modest : graph.simplifier.Modest)
    (failures index : Nat) : Edits limit limit graph (simplifyOne (graph, failures) index).1 := by
  unfold simplifyOne
  simp only
  split
  · exact ReflTransGen.refl
  · rename_i node live
    split
    · rename_i value simplified
      have issued := modest.issued_onTensor (lawful.regular live).value simplified
      exact ReflTransGen.single (Edit.revalue live (Simplifier.onTensor_eq_ok simplified).1 issued)
    · exact ReflTransGen.refl

theorem simplifyValues_edits (orderly : graph.Orderly limit) (modest : graph.simplifier.Modest) :
    Edits limit limit graph graph.simplifyValues.1 := by
  refine Grouping.foldl_related
    (fun _ (state : Graph κ × Nat) => state.1.Orderly limit ∧ state.1.simplifier.Modest)
    (fun first second => Edits limit limit first.1 second.1)
    (fun _ _ => ReflTransGen.refl) ReflTransGen.trans ?_ graph.liveIndices (graph, 0)
    ⟨orderly, modest⟩
  rintro head _ ⟨graph, failures⟩ ⟨orderly, modest⟩
  have first := simplifyOne_rewritten orderly modest failures head
  exact ⟨⟨first.orderly, first.simplifier ▸ modest⟩,
    simplifyOne_edits orderly.toLawful modest failures head⟩

theorem edit_foldInto (lawful : graph.Lawful limit) {index first : Nat} {node other : Node κ}
    (live : graph.node? index = some node) (otherLive : graph.node? first = some other)
    (same : other.value = node.value) :
    Edit limit limit graph (graph.setValue index (.ofSymbol other.symbol)) := by
  have otherRegular := lawful.regular otherLive
  refine Edit.revalue live ?_ (Tensor.issued_ofSymbol otherRegular.issued)
  rw [Tensor.shape_ofSymbol, ← otherRegular.shape_eq, same]

theorem foldDuplicates_edits (orderly : graph.Orderly limit) :
    Edits limit limit graph graph.foldDuplicates.1 := by
  refine Grouping.foldl_related
    (fun indices (state : Folding κ) => state.graph.Orderly limit ∧ indices.Nodup ∧
      SeenBefore state.graph state.seen indices)
    (fun first second => Edits limit limit first.graph second.graph)
    (fun _ _ => ReflTransGen.refl) ReflTransGen.trans ?_ graph.liveIndices ⟨graph, [], 0⟩
    ⟨orderly, nodup_liveIndices graph, seenBefore_nil graph _⟩
  rintro head tail ⟨graph, seen, folded⟩ ⟨orderly, unique, before⟩
  obtain ⟨fresh, rest⟩ := List.nodup_cons.mp unique
  obtain ⟨after, step⟩ := foldStep_cases folded orderly before fresh
  rcases step with same | ⟨node, first, other, live, otherLive, differ, value, same⟩
  · exact ⟨⟨same ▸ orderly, rest, after⟩, by rw [same]; exact ReflTransGen.refl⟩
  · have rewritten := rewritten_foldInto orderly live otherLive differ value
    rw [← same] at rewritten
    exact ⟨⟨rewritten.orderly, rest, after⟩,
      same ▸ ReflTransGen.single (edit_foldInto orderly.toLawful live otherLive value)⟩

theorem setValues_edits {pairs : List (Nat × Tensor κ)} (unique : (pairs.map (·.1)).Nodup)
    (fits : ∀ pair ∈ pairs, ∃ node, graph.node? pair.1 = some node ∧
      pair.2.shape = node.value.shape ∧ pair.2.Issued more) :
    Edits limit more graph (graph.setValues pairs) := by
  induction pairs generalizing graph with
  | nil => exact ReflTransGen.refl
  | cons head tail ih =>
      rw [List.map_cons, List.nodup_cons] at unique
      obtain ⟨node, live, shape, issued⟩ := fits head List.mem_cons_self
      refine ReflTransGen.head (Edit.revalue live shape issued) (ih unique.2 ?_)
      intro pair member
      obtain ⟨other, otherLive, rest⟩ := fits pair (List.mem_cons_of_mem _ member)
      refine ⟨other, ?_, rest⟩
      rw [node?_setValue, if_neg, otherLive]
      intro same
      exact unique.1 (List.mem_map.mpr ⟨pair, member, same.symm⟩)

theorem appendTemporaries_edits {temporaries : List (Symbol × Expr κ)}
    (appendable : Appendable more temporaries graph)
    (fresh : ∀ temporary ∈ temporaries, limit ≤ temporary.1.number)
    (issued : ∀ symbol target, graph.aliases.find? symbol = some target → symbol.number < limit) :
    Edits limit more graph (temporaries.foldl appendTemporary graph) := by
  induction temporaries generalizing graph with
  | nil => exact ReflTransGen.refl
  | cons head tail ih =>
      obtain ⟨undefined, noInput⟩ := appendable.fresh head List.mem_cons_self
      have new := fresh head List.mem_cons_self
      have noAlias : graph.aliases.find? head.1 = none := by
        rw [Option.eq_none_iff_forall_ne_some]
        intro target known
        exact absurd new (not_le.mpr (issued head.1 target known))
      exact ReflTransGen.head (Edit.name new (appendable.regular head List.mem_cons_self) undefined
        noInput noAlias) (ih appendable.tail (fun temporary member =>
          fresh temporary (List.mem_cons_of_mem _ member)) issued)

section

variable {supply : SymbolSupply}

theorem edits_of_run (orderly : graph.Orderly supply.next) (repeated : Expr κ → Bool)
    (nextName : Nat) (run : List (Tensor κ) × Hoisting κ)
    (same : run = Hoist.perform (graph.equations.mapM fun equation =>
      shareValue repeated equation.value) (graph.hoistingOf repeated nextName supply)) :
    Edits supply.next run.2.supply.next graph
      (run.2.temporaries.foldl appendTemporary
        (({ graph with nextTemporary := run.2.nextName } : Graph κ).setValues
          (graph.liveIndices.zip run.1))) := by
  obtain ⟨named, hoisted, shared⟩ := exists_hoisted orderly repeated nextName same
  obtain ⟨indices, fits⟩ := hoisted.fits orderly shared
  have revalued : Edits supply.next run.2.supply.next
      ({ graph with nextTemporary := run.2.nextName } : Graph κ)
      (({ graph with nextTemporary := run.2.nextName } : Graph κ).setValues
        (graph.liveIndices.zip run.1)) := by
    have unique := nodup_liveIndices graph
    rw [← indices] at unique
    apply setValues_edits unique
    intro pair member
    obtain ⟨node, live, shared, issued⟩ := fits pair member
    exact ⟨node, live, shared.shape_eq, issued⟩
  refine ReflTransGen.head (Edit.number _) (revalued.trans ?_)
  have middle := hoisted.revalued orderly shared
  refine appendTemporaries_edits (hoisted.appendable orderly middle)
    (fun temporary member => (hoisted.fresh temporary member).1) ?_
  intro symbol target known
  rw [middle.aliases] at known
  obtain ⟨_, stands⟩ := orderly.toLawful.aliases known
  exact stands.issued.1

theorem nameRepeated_edits (orderly : graph.Orderly supply.next) :
    Edits supply.next (graph.nameRepeated supply).2.2.next graph (graph.nameRepeated supply).1 :=
  edits_of_run orderly _ _ _ rfl

theorem Inlines.edits {temporary reader : Nat} {node other : Node κ} {replacement : Expr κ}
    (inlines : Inlines graph temporary reader node other replacement) (lawful : graph.Lawful more)
    (fresh : limit ≤ node.symbol.number) :
    Edits limit more graph (graph.inlined temporary reader node other replacement) := by
  have still : (graph.setValue reader (other.value.substitute
      (replaceSymbol node.symbol replacement))).node? temporary = some node := by
    rw [node?_setValue, if_neg inlines.differ, inlines.live]
  exact (ReflTransGen.single (Edit.revalue inlines.readerLive (Tensor.shape_substitute _ _)
    (inlines.issued_value lawful))).tail (Edit.inline still fresh)

theorem inlineAll_edits {remaining : List Nat} (waiting : Waiting limit more graph remaining) :
    Edits limit more graph (remaining.foldl inlineOne (graph, 0)).1 := by
  refine Grouping.foldl_related
    (fun indices (state : Graph κ × Nat) => Waiting limit more state.1 indices)
    (fun first second => Edits limit more first.1 second.1)
    (fun _ _ => ReflTransGen.refl) ReflTransGen.trans ?_ remaining (graph, 0) waiting
  rintro head tail ⟨graph, count⟩ waiting
  refine ⟨(waiting.step count).1, ?_⟩
  obtain ⟨node, live, fresh, single⟩ := waiting.fresh head List.mem_cons_self
  rcases inlineOne_cases waiting.orderly.toLawful live single count with
    same | ⟨reader, other, replacement, inlines, same⟩
  · rw [same]
    exact ReflTransGen.refl
  · rw [same]
    exact inlines.edits waiting.orderly.toLawful fresh

theorem shareRepeated_edits (orderly : graph.Orderly supply.next) :
    Edits supply.next (graph.shareRepeated supply).2.2.next graph (graph.shareRepeated supply).1 :=
  (nameRepeated_edits orderly).trans (inlineAll_edits (waiting_nameRepeated orderly))

end

def Intermediate (ends : Table Symbol Symbol) (graph : Graph κ) : Prop :=
  ∀ index node, graph.node? index = some node → ends.contains node.symbol = true →
    node.equation.categories.isOnly .variable = true

theorem Intermediate.removeAlias {ends : Table Symbol Symbol} (intermediate : Intermediate ends graph)
    (index : Nat) : Intermediate ends (removeAlias ends graph index) := by
  intro other node live renamed
  rw [node?_removeAlias] at live
  split at live
  · obtain ⟨old, before, now⟩ := Option.bind_eq_some_iff.mp live
    unfold retargeted at now
    split at now
    · cases now
    split at now
    · cases now
      exact intermediate other old before renamed
    · cases now
      exact intermediate other node before renamed
  · exact intermediate other node live renamed

theorem removeAlias_edits {ends : Table Symbol Symbol} (lawful : graph.Lawful limit)
    (intermediate : Intermediate ends graph)
    (stands : ∀ {symbol last : Symbol}, ends.find? symbol = some last →
      Stands limit symbol (.ofSymbol last : Tensor κ) last) (index : Nat) :
    Edits limit limit graph (removeAlias ends graph index) := by
  unfold removeAlias
  split
  · exact ReflTransGen.refl
  rename_i node live
  split
  · rename_i last found
    have renamed : ends.contains node.symbol = true := by rw [Table.contains, found]; rfl
    exact ReflTransGen.single
      (Edit.rename live (intermediate index node live renamed) (stands found))
  split
  · exact ReflTransGen.single (Edit.revalue live (Tensor.shape_substitute _ _)
      (issued_retarget stands (lawful.regular live).value))
  · exact ReflTransGen.refl

theorem eliminateAliases_edits (orderly : graph.Orderly limit) :
    Edits limit limit graph graph.eliminateAliases.1 := by
  have lawful := orderly.toLawful
  have stands : ∀ {symbol last : Symbol}, graph.endsOf.find? symbol = some last →
      Stands limit symbol (.ofSymbol last : Tensor κ) last :=
    fun found => (endsOf_renames orderly).stands lawful found
  have intermediate : Intermediate graph.endsOf graph := by
    intro index node live renamed
    cases found : graph.renamings.find? node.symbol with
    | none =>
        rw [Table.contains, endsOf_eq_none.mpr found] at renamed
        cases renamed
    | some target => exact renamings_intermediate lawful found live rfl
  rcases eliminateAliases_eq graph with same | same
  · rw [same]
    exact ReflTransGen.refl
  · rw [same]
    refine Grouping.foldl_related
      (fun _ (state : Graph κ) => state.Lawful limit ∧ Intermediate graph.endsOf state)
      (Edits limit limit) (fun _ _ => ReflTransGen.refl) ReflTransGen.trans ?_ graph.liveIndices graph
      ⟨lawful, intermediate⟩
    rintro head _ state ⟨lawful, intermediate⟩
    exact ⟨⟨lawful.removeAlias stands head, intermediate.removeAlias head⟩,
      removeAlias_edits lawful intermediate stands head⟩

theorem shareWanted_edits {supply : SymbolSupply} (orderly : graph.Orderly supply.next) :
    Edits supply.next (graph.shareWanted supply).2.next graph (graph.shareWanted supply).1 := by
  unfold shareWanted
  split
  · exact shareRepeated_edits orderly
  · exact ReflTransGen.refl

theorem optimized_edits {supply : SymbolSupply} (orderly : graph.Orderly supply.next)
    (modest : graph.simplifier.Modest) :
    Edits supply.next (graph.optimized supply).supply.next graph (graph.optimized supply).graph := by
  rcases optimized_eq graph supply with ⟨same, supplySame⟩ | ⟨same, supplySame⟩
  · rw [same, supplySame]
    exact ReflTransGen.refl
  · rw [same, supplySame]
    have simplified := simplifyValues_rewritten orderly modest
    have folded := folded_rewritten orderly modest
    have shared := shareWanted_rewritten folded.orderly
    have first : Edits supply.next supply.next graph graph.simplifyValues.1.foldDuplicates.1 :=
      (simplifyValues_edits orderly modest).trans (foldDuplicates_edits simplified.orderly)
    have second := (Edits.mono first shared.le).trans (shareWanted_edits folded.orderly)
    exact (second.trans ((eliminateAliases_edits shared.orderly).weaken shared.le)).tail Edit.relink

/-- Another node of the same registration, be its value rewritten or not. -/
structure Node.SameOrigin (node other : Node κ) : Prop where
  name : other.equation.name = node.equation.name
  categories : other.equation.categories = node.equation.categories
  registered : other.registered = node.registered

/-- The old symbols of the second graph have the registrations that they had in the first one, and
only intermediate ones have been lost. -/
structure Stems (limit : Nat) (before after : Graph κ) : Prop where
  origin : ∀ {symbol : Symbol} {other : Node κ}, symbol.number < limit →
    after.nodeOf? symbol = some other →
      ∃ node, before.nodeOf? symbol = some node ∧ node.SameOrigin other
  kept : ∀ {symbol : Symbol} {node : Node κ}, symbol.number < limit →
    before.nodeOf? symbol = some node → node.equation.categories.isOnly .variable = true ∨
      ∃ other, after.nodeOf? symbol = some other

theorem Stems.refl (limit : Nat) (graph : Graph κ) : Stems limit graph graph where
  origin := fun _ found => ⟨_, found, rfl, rfl, rfl⟩
  kept := fun _ found => Or.inr ⟨_, found⟩

theorem Stems.trans {first second third : Graph κ} (left : Stems limit first second)
    (right : Stems limit second third) : Stems limit first third where
  origin := by
    intro symbol other old found
    obtain ⟨middle, middleFound, later⟩ := right.origin old found
    obtain ⟨node, before, earlier⟩ := left.origin old middleFound
    exact ⟨node, before, later.name.trans earlier.name, later.categories.trans earlier.categories,
      later.registered.trans earlier.registered⟩
  kept := by
    intro symbol node old found
    rcases left.kept old found with intermediate | ⟨middle, middleFound⟩
    · exact Or.inl intermediate
    · obtain ⟨again, before, same⟩ := left.origin old middleFound
      rw [found, Option.some.injEq] at before
      subst before
      rw [← same.categories]
      exact right.kept old middleFound

theorem Stems.of_nodeOf? (same : ∀ symbol, symbol.number < limit →
    after.nodeOf? symbol = before.nodeOf? symbol) : Stems limit before after where
  origin := fun old found => ⟨_, same _ old ▸ found, rfl, rfl, rfl⟩
  kept := fun old found => Or.inr ⟨_, (same _ old).trans found⟩

theorem Edit.stems (edit : Edit limit more before after) (lawful : before.Lawful more) :
    Stems limit before after := by
  cases edit with
  | number | relink => exact Stems.of_nodeOf? fun _ _ => rfl
  | @revalue index node value live shape issued =>
      have lookup := lawful.nodeOf?_setValue live value
      constructor
      · intro symbol other old found
        rw [lookup] at found
        split at found
        · rename_i here
          cases found
          exact ⟨node, here ▸ lawful.nodeOf?_symbol live, rfl, rfl, rfl⟩
        · exact ⟨other, found, rfl, rfl, rfl⟩
      · intro symbol other old found
        rw [lookup]
        split
        · exact Or.inr ⟨_, rfl⟩
        · exact Or.inr ⟨other, found⟩
  | name fresh =>
      apply Stems.of_nodeOf?
      intro symbol old
      refine (lawful.nodeOf?_appendNode rfl symbol).trans (if_neg ?_)
      rintro rfl
      exact absurd fresh (not_le.mpr old)
  | inline live fresh =>
      apply Stems.of_nodeOf?
      intro symbol old
      refine (lawful.nodeOf?_removeNode live symbol).trans (if_neg ?_)
      rintro rfl
      exact absurd fresh (not_le.mpr old)
  | @rename index node last live intermediate stands =>
      have lookup : ∀ symbol, ({ before.removeNode index with
          aliases := before.aliases.insert node.symbol (.ofSymbol last) } : Graph κ).nodeOf? symbol =
            if node.symbol = symbol then none else before.nodeOf? symbol :=
        lawful.nodeOf?_removeNode live
      constructor
      · intro symbol other old found
        rw [lookup] at found
        split at found
        · cases found
        · exact ⟨other, found, rfl, rfl, rfl⟩
      · intro symbol other old found
        rw [lookup]
        split
        · rename_i here
          rw [← here, lawful.nodeOf?_symbol live, Option.some.injEq] at found
          exact Or.inl (found ▸ intermediate)
        · exact Or.inr ⟨other, found⟩

theorem Edits.stems (edits : Edits limit more before after) (lawful : before.Lawful more) :
    Stems limit before after :=
  edits.invariant lawful (fun edit lawful stems => stems.trans (edit.stems lawful))
    (Stems.refl limit before)

theorem optimized_stems {supply : SymbolSupply} (orderly : graph.Orderly supply.next)
    (modest : graph.simplifier.Modest) :
    Stems supply.next graph (graph.optimized supply).graph :=
  (optimized_edits orderly modest).stems
    (orderly.toLawful.mono (optimized_improved orderly modest).le)

end Mechanism.Graph
