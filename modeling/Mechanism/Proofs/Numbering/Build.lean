import Mechanism.Graph.Build
import Mechanism.Proofs.Graph.Distribution
import Mechanism.Proofs.Graph.Removal
import Mechanism.Proofs.Numbering.Graph

/-!
The passes of a build over a graph whose numbers are moved. Hash tables are read only under keys that
are at hand and never from end to end, so what they answer under the moved keys is what they answered
before: the same definitions are folded, the same subexpressions get names, in the same order and of
the same names, and the same aliases are removed.
-/

namespace Mechanism.Graph

variable {κ : Type} [Scalar κ] (offset : Nat)

@[simp] theorem setValue_shift (graph : Graph κ) (index : Nat) (value : Tensor κ) :
    (shift offset graph).setValue index (shift offset value) =
      shift offset (graph.setValue index value) :=
  modifyNode_shift offset graph index fun node => Node.withValue_shift offset node value

theorem onTensor_shift {simplifier : Simplifier κ} (blind : simplifier.Blind) (tensor : Tensor κ) :
    simplifier.onTensor (shift offset tensor) = shift offset (simplifier.onTensor tensor) :=
  Tensor.mapM?_shift offset tensor (blind offset)

theorem simplifyOne_shift (graph : Graph κ) (blind : graph.simplifier.Blind) (failures index : Nat) :
    simplifyOne (shift offset graph, failures) index =
      shift offset (simplifyOne (graph, failures) index) := by
  simp only [simplifyOne, node?_shift, shift_simplifier]
  cases graph.node? index with
  | none => rfl
  | some node =>
      simp only [Option.map_some, Node.shift_value, onTensor_shift offset blind]
      cases graph.simplifier.onTensor node.value with
      | error error => rfl
      | ok value => exact congrArg (·, failures) (setValue_shift offset graph index value)

theorem simplifier_simplifyOne (graph : Graph κ) (failures index : Nat) :
    (simplifyOne (graph, failures) index).1.simplifier = graph.simplifier := by
  simp only [simplifyOne]
  split
  · rfl
  · split <;> rfl

theorem simplifyValues_shift (graph : Graph κ) (blind : graph.simplifier.Blind) :
    (shift offset graph).simplifyValues = shift offset graph.simplifyValues := by
  have folded : (graph.liveIndices.map id).foldl simplifyOne (shift offset graph, 0) =
      shift offset (graph.liveIndices.foldl simplifyOne (graph, 0)) ∧
        (graph.liveIndices.foldl simplifyOne (graph, 0)).1.simplifier.Blind := by
    refine foldl_related (fun (moved state : Graph κ × Nat) =>
      moved = shift offset state ∧ state.1.simplifier.Blind) ?_ graph.liveIndices ⟨rfl, blind⟩
    rintro _ ⟨graph, failures⟩ index ⟨rfl, blind⟩
    exact ⟨simplifyOne_shift offset graph blind failures index,
      (simplifier_simplifyOne graph failures index).symm ▸ blind⟩
  rw [simplifyValues, liveIndices_shift, simplifyValues, ← folded.1, List.map_id]

instance : Numbered (Folding κ) := ⟨fun offset state =>
  ⟨shift offset state.graph, state.seen.map (shift offset), state.folded⟩⟩

@[simp] theorem foldStep_shift (state : Folding κ) (index : Nat) :
    foldStep (shift offset state) index = shift offset (foldStep state index) := by
  obtain ⟨graph, seen, folded⟩ := state
  change foldStep ⟨shift offset graph, seen.map (shift offset), folded⟩ index = _
  simp only [foldStep, node?_shift]
  cases graph.node? index with
  | none => rfl
  | some node =>
      have found : (seen.map (shift offset)).find? (fun entry => entry.1 = (shift offset node).value) =
          (seen.find? fun entry => entry.1 = node.value).map (shift offset) := by
        simp [List.find?_map]
      simp only [Option.map_some]
      rw [shift_ite]
      refine ite_congr (by simp) (fun _ => rfl) fun _ => ?_
      rw [found]
      cases seen.find? fun entry => entry.1 = node.value with
      | none =>
          change Folding.mk _ _ _ = Folding.mk _ _ _
          simp
      | some entry =>
          simp only [Option.map_some, shift_pair, Tensor.ofSymbol_shift, setValue_shift]
          rfl

@[simp] theorem foldDuplicates_shift (graph : Graph κ) :
    (shift offset graph).foldDuplicates = shift offset graph.foldDuplicates := by
  have folded := foldl_shift offset (fun state index => foldStep_shift offset state index)
    graph.liveIndices ⟨graph, [], 0⟩
  simp only [shift_plain, List.map_id] at folded
  have start : (⟨shift offset graph, [], 0⟩ : Folding κ) = shift offset ⟨graph, [], 0⟩ := rfl
  rw [foldDuplicates, liveIndices_shift, start, folded]
  rfl

def Matches (moved counts : Counts κ) : Prop :=
  ∀ expr, countOf moved (shift offset expr) = countOf counts expr

variable {offset} {moved counts : Counts κ}

theorem Matches.increment (same : Matches offset moved counts) (expr : Expr κ) :
    Matches offset (increment (shift offset expr) moved) (increment expr counts) := by
  intro other
  simp [countOf_increment, same other]

theorem Matches.countAll {exprs : List (Expr κ)}
    (each : ∀ expr ∈ exprs, ∀ moved counts, Matches offset moved counts →
      Matches offset (countIn moved (shift offset expr)) (countIn counts expr))
    (same : Matches offset moved counts) :
    Matches offset (countAll moved (exprs.map (shift offset))) (countAll counts exprs) := by
  induction exprs generalizing moved counts with
  | nil => exact same
  | cons head tail ih =>
      exact ih (fun expr member => each expr (List.mem_cons_of_mem _ member))
        (each head List.mem_cons_self _ _ same)

theorem Matches.countIn (expr : Expr κ) (same : Matches offset moved counts) :
    Matches offset (countIn moved (shift offset expr)) (countIn counts expr) := by
  induction expr using Expr.induct generalizing moved counts with
  | step expr ih =>
      cases leaf : expr.isLeaf with
      | true =>
          rw [countIn_leaf (by simp [leaf]), countIn_leaf leaf]
          exact same
      | false =>
          have counted := same.increment expr
          have operands := Matches.countAll (fun child member _ _ => ih child member) counted
          rw [countIn_compound (by simp [leaf]), countIn_compound leaf, enter, enter, counted expr,
            Expr.children_shift]
          split
          · exact operands
          · exact counted

theorem Matches.countEntries (exprs : List (Expr κ)) (same : Matches offset moved counts) :
    Matches offset (Graph.countAll moved (exprs.map (shift offset))) (Graph.countAll counts exprs) :=
  Matches.countAll (fun expr _ _ _ same => same.countIn expr) same

/-- The state of a hoisting whose numbers are moved. -/
structure Hoisting.Follows (offset : Nat) (moved state : Hoisting κ) : Prop where
  named : ∀ expr : Expr κ, moved.named[shift offset expr]? = state.named[expr]?.map (shift offset)
  temporaries : moved.temporaries = state.temporaries.map (shift offset)
  nextName : moved.nextName = state.nextName
  supply : moved.supply = shift offset state.supply

/-- An action that does with the moved state what the other does with the state. -/
def Hoist.Follows {α : Type} [Numbered α] (offset : Nat) (moved action : Hoist κ α) : Prop :=
  ∀ movedState state, Hoisting.Follows offset movedState state →
    (moved.perform movedState).1 = shift offset (action.perform state).1 ∧
      Hoisting.Follows offset (moved.perform movedState).2 (action.perform state).2

namespace Hoist.Follows

variable {α β : Type} [Numbered α] [Numbered β]

theorem pure (value : α) :
    Follows offset (Pure.pure (shift offset value) : Hoist κ α) (Pure.pure value) :=
  fun _ _ follows => ⟨rfl, follows⟩

theorem bind {moved action : Hoist κ α} {movedNext next : α → Hoist κ β}
    (first : Follows offset moved action)
    (rest : ∀ value, Follows offset (movedNext (shift offset value)) (next value)) :
    Follows offset (moved >>= movedNext) (action >>= next) := by
  intro movedState state follows
  obtain ⟨value, after⟩ := first movedState state follows
  have later := rest (action.perform state).1 _ _ after
  rw [← value] at later
  exact later

theorem mapM {moved action : α → Hoist κ β} (items : List α)
    (each : ∀ item ∈ items, Follows offset (moved (shift offset item)) (action item)) :
    Follows offset ((items.map (shift offset)).mapM moved) (items.mapM action) := by
  induction items with
  | nil =>
      rw [List.map_nil, List.mapM_nil, List.mapM_nil]
      exact pure []
  | cons head tail ih =>
      rw [List.map_cons, List.mapM_cons, List.mapM_cons]
      refine (each head List.mem_cons_self).bind fun first => ?_
      refine (ih fun item member => each item (List.mem_cons_of_mem _ member)).bind fun rest => ?_
      exact pure (first :: rest)

end Hoist.Follows

theorem follows_nameTemporary (expr value : Expr κ) :
    Hoist.Follows offset (nameTemporary (shift offset expr) (shift offset value))
      (nameTemporary expr value) := by
  intro movedState state follows
  rw [perform_nameTemporary, perform_nameTemporary, follows.nextName, follows.supply,
    SymbolSupply.fresh_shift]
  refine ⟨by simp, ?_, ?_, rfl, rfl⟩
  · intro other
    simp only [Std.HashMap.getElem?_insert, shift_beq, follows.named]
    split <;> rfl
  · simp [follows.temporaries]

section Sharing

variable {repeated movedRepeated : Expr κ → Bool}
  (same : ∀ expr, movedRepeated (shift offset expr) = repeated expr)

@[simp] theorem isHoistable_shift (expr : Expr κ) :
    isHoistable (shift offset expr) = isHoistable expr := by
  cases expr with
  | mul operands =>
      rcases operands with _ | ⟨first, _ | ⟨second, _ | ⟨third, rest⟩⟩⟩ <;> simp [isHoistable]
  | _ => simp [isHoistable]

theorem follows_shareBelow {expr : Expr κ}
    (each : ∀ child ∈ expr.children,
      Hoist.Follows offset (shareIn movedRepeated (shift offset child)) (shareIn repeated child)) :
    Hoist.Follows offset (shareBelow movedRepeated (shift offset expr)) (shareBelow repeated expr) := by
  unfold shareBelow
  rw [shareAll_eq, shareAll_eq, Expr.children_shift]
  refine (Hoist.Follows.mapM _ each).bind fun operands => ?_
  rw [shift_list, Expr.rebuild_shift]
  exact Hoist.Follows.pure _

include same

theorem follows_shareAs {expr : Expr κ} {movedRebuild rebuild : Hoist κ (Expr κ)}
    (rebuilds : Hoist.Follows offset movedRebuild rebuild) :
    Hoist.Follows offset (shareAs movedRepeated (shift offset expr) movedRebuild)
      (shareAs repeated expr rebuild) := by
  intro movedState state follows
  rw [perform_shareAs, perform_shareAs, isHoistable_shift, same, follows.named]
  split
  · cases state.named[expr]? with
    | some symbol => exact ⟨by simp, follows⟩
    | none =>
        obtain ⟨value, after⟩ := rebuilds movedState state follows
        simp only [Option.map_none, value]
        exact follows_nameTemporary _ _ _ _ after
  · exact rebuilds movedState state follows

theorem follows_shareIn (expr : Expr κ) :
    Hoist.Follows offset (shareIn movedRepeated (shift offset expr)) (shareIn repeated expr) := by
  induction expr using Expr.induct with
  | step expr ih =>
      rw [shareIn_eq, shareIn_eq]
      exact follows_shareAs same (follows_shareBelow ih)

theorem follows_shareValue (value : Tensor κ) :
    Hoist.Follows offset (shareValue movedRepeated (shift offset value))
      (shareValue repeated value) := by
  unfold shareValue
  rw [Tensor.shift_shape, Tensor.shift_entries]
  split
  · refine (Hoist.Follows.mapM _ fun entry _ =>
      follows_shareBelow fun child _ => follows_shareIn same child).bind fun entries => ?_
    exact Hoist.Follows.pure (Tensor.mk value.shape entries)
  · refine (Hoist.Follows.mapM _ fun entry _ => follows_shareIn same entry).bind fun entries => ?_
    exact Hoist.Follows.pure (Tensor.mk value.shape entries)

theorem namedValues_shift (equations : List (Equation κ)) (expr : Expr κ) :
    (namedValues movedRepeated (equations.map (shift offset)))[shift offset expr]? =
      (namedValues repeated equations)[expr]?.map (shift offset) := by
  refine foldl_related
    (fun (moved named : Std.HashMap (Expr κ) Symbol) =>
      ∀ expr : Expr κ, moved[shift offset expr]? = named[expr]?.map (shift offset))
    (fun moved named equation matching other => ?_) equations (by simp) expr
  simp only [Equation.shift_value, Tensor.toExpr_shift]
  cases equation.value.toExpr with
  | error error => exact matching other
  | ok value =>
      have known : moved.contains (shift offset value) = named.contains value := by
        rw [Std.HashMap.contains_eq_isSome_getElem?, matching,
          Std.HashMap.contains_eq_isSome_getElem?, Option.isSome_map]
      simp only [shift_ok, isHoistable_shift, same, known]
      split
      · simp only [Std.HashMap.getElem?_insert, shift_beq, matching]
        split <;> rfl
      · exact matching other

end Sharing

@[simp] theorem usesOf_shift (graph : Graph κ) (symbol : Symbol) :
    (shift offset graph).usesOf (shift offset symbol) = graph.usesOf symbol := by
  have entries : (shift offset graph).equations.flatMap (fun equation => equation.value.entries) =
      (graph.equations.flatMap fun equation => equation.value.entries).map (shift offset) := by
    rw [equations_shift, List.flatMap_map, List.map_flatMap]
    rfl
  simp only [usesOf, entries, List.map_map]
  refine congrArg total (List.map_congr_left fun entry _ => ?_)
  simp [List.countP_map, Function.comp_def]

@[simp] theorem inlineOne_shift (graph : Graph κ) (inlined temporary : Nat) :
    inlineOne (shift offset graph, inlined) temporary =
      shift offset (inlineOne (graph, inlined) temporary) := by
  simp only [inlineOne, node?_shift]
  cases graph.node? temporary with
  | none => rfl
  | some node =>
      simp only [Option.map_some, Node.shift_value, Tensor.toExpr_shift]
      cases node.value.toExpr with
      | error error => rfl
      | ok replacement =>
          have reads : ∀ index, ((graph.node? index).map (shift offset)).any
              (fun other => other.reads.contains (shift offset node).symbol) =
                (graph.node? index).any fun other => other.reads.contains node.symbol := by
            intro index
            rw [Option.any_map]
            simp
          have put : ∀ other : Node κ, (shift offset other).withValue
              ((shift offset other).value.substitute
                (replaceSymbol (shift offset node).symbol (shift offset replacement))) =
                  shift offset (other.withValue
                    (other.value.substitute (replaceSymbol node.symbol replacement))) := by
            intro other
            rw [← Node.withValue_shift, Node.shift_value]
            refine congrArg _ (Tensor.substitute_shift offset other.value fun atom => ?_)
            simp only [replaceSymbol, Node.shift_symbol, Atom.symbol_shift, shift_inj]
            split <;> rfl
          simp only [shift_ok, reads, liveIndices_shift]
          cases graph.liveIndices.find? fun index => index != temporary &&
              (graph.node? index).any fun other => other.reads.contains node.symbol with
          | none => rfl
          | some reader =>
              have changed : (shift offset graph).modifyNode reader (fun other =>
                  other.withValue (other.value.substitute
                    (replaceSymbol (shift offset node).symbol (shift offset replacement)))) =
                      shift offset (graph.modifyNode reader fun other => other.withValue
                        (other.value.substitute (replaceSymbol node.symbol replacement))) :=
                modifyNode_shift offset graph reader put
              simp only [changed, removeNode_shift]
              rfl

@[simp] theorem inlineSingleUse_shift (graph : Graph κ) (temporaries : List Nat) :
    (shift offset graph).inlineSingleUse temporaries =
      shift offset (graph.inlineSingleUse temporaries) := by
  have single : (temporaries.filter fun index =>
      ((shift offset graph).symbolAt? index).any fun symbol => (shift offset graph).usesOf symbol = 1) =
        temporaries.filter fun index =>
          (graph.symbolAt? index).any fun symbol => graph.usesOf symbol = 1 := by
    refine List.filter_congr fun index _ => ?_
    rw [symbolAt?_shift, Option.any_map]
    simp
  have inlined := foldl_shift offset
    (fun (state : Graph κ × Nat) (index : Nat) => inlineOne_shift state.1 state.2 index)
    (temporaries.filter fun index =>
      (graph.symbolAt? index).any fun symbol => graph.usesOf symbol = 1).reverse (graph, 0)
  simp only [shift_plain, List.map_id] at inlined
  rw [inlineSingleUse, single, inlineSingleUse, ← inlined]
  rfl

@[simp] theorem appendTemporary_shift (graph : Graph κ) (temporary : Symbol × Expr κ) :
    (shift offset graph).appendTemporary (shift offset temporary) =
      shift offset (graph.appendTemporary temporary) := by
  rw [appendTemporary, appendTemporary, ← appendNode_shift, ← Node.ofEquation_shift,
    ← Tensor.ofExpr_shift]
  rfl

theorem counts_match (graph : Graph κ) :
    Matches offset (shift offset graph).counts graph.counts := by
  rw [counts, equations_shift]
  refine foldl_related (Matches offset) (fun moved counts equation same => ?_) graph.equations
    fun expr => by simp
  exact same.countEntries equation.value.entries

variable (offset)

@[simp] theorem isRepeated_shift (graph : Graph κ) (expr : Expr κ) :
    (shift offset graph).isRepeated (shift offset expr) = graph.isRepeated expr := by
  rw [isRepeated, isRepeated, counts_match graph expr]
  rfl

theorem sharingRun_shift (graph : Graph κ) (supply : SymbolSupply) :
    ((shift offset graph).sharingRun (shift offset supply)).1 =
        (graph.sharingRun supply).1.map (shift offset) ∧
      Hoisting.Follows offset ((shift offset graph).sharingRun (shift offset supply)).2
        (graph.sharingRun supply).2 := by
  have start : Hoisting.Follows offset
      ((shift offset graph).hoistingOf (shift offset graph).isRepeated graph.nextTemporary
        (shift offset supply))
      (graph.hoistingOf graph.isRepeated graph.nextTemporary supply) := by
    refine ⟨fun expr => ?_, rfl, rfl, rfl⟩
    simp only [hoistingOf, equations_shift]
    exact namedValues_shift (isRepeated_shift offset graph) graph.equations expr
  have values : Hoist.Follows offset
      ((shift offset graph).equations.mapM fun equation =>
        shareValue (shift offset graph).isRepeated equation.value)
      (graph.equations.mapM fun equation => shareValue graph.isRepeated equation.value) := by
    rw [equations_shift]
    refine Hoist.Follows.mapM graph.equations fun equation _ => ?_
    exact follows_shareValue (isRepeated_shift offset graph) equation.value
  exact values _ _ start

theorem revaluedBy_shift (graph : Graph κ) {movedRun run : List (Tensor κ) × Hoisting κ}
    (values : movedRun.1 = run.1.map (shift offset)) (nextName : movedRun.2.nextName = run.2.nextName) :
    (shift offset graph).revaluedBy movedRun = shift offset (graph.revaluedBy run) := by
  have zipped : (shift offset graph).liveIndices.zip movedRun.1 =
      (graph.liveIndices.zip run.1).map (shift offset) := by
    rw [liveIndices_shift, values, List.zip_map_right]
    rfl
  rw [revaluedBy, zipped, nextName]
  refine foldl_shift offset (fun (graph : Graph κ) (entry : Nat × Tensor κ) => ?_)
    (graph.liveIndices.zip run.1) { graph with nextTemporary := run.2.nextName }
  exact setValue_shift offset graph entry.1 entry.2

theorem nameRepeated_shift (graph : Graph κ) (supply : SymbolSupply) :
    (shift offset graph).nameRepeated (shift offset supply) =
      shift offset (graph.nameRepeated supply) := by
  obtain ⟨values, follows⟩ := sharingRun_shift offset graph supply
  have revalued := revaluedBy_shift offset graph values follows.nextName
  have appended := foldl_shift offset
    (fun (graph : Graph κ) entry => appendTemporary_shift graph entry)
    (graph.sharingRun supply).2.temporaries (graph.revaluedBy (graph.sharingRun supply))
  refine Prod.ext ?_ (Prod.ext ?_ ?_)
  · rw [nameRepeated_fst, follows.temporaries, revalued, appended]
    rfl
  · rw [nameRepeated_created, follows.temporaries, revalued, List.length_map, shift_nodes,
      List.length_map]
    simp [nameRepeated_created]
  · exact follows.supply

theorem shareRepeated_shift (graph : Graph κ) (supply : SymbolSupply) :
    (shift offset graph).shareRepeated (shift offset supply) =
      shift offset (graph.shareRepeated supply) := by
  unfold shareRepeated
  rw [nameRepeated_shift offset]
  simp only [shift_pair, shift_list, shift_plain, List.map_id, inlineSingleUse_shift]
  rfl

@[simp] theorem renames?_shift (equation : Equation κ) :
    renames? (shift offset equation) = (renames? equation).map (shift offset) := by
  simp only [renames?, Equation.shift_categories, Equation.shift_value, Tensor.aliasTarget?_shift,
    Equation.shift_symbol]
  split
  · simp [Option.filter_map, Function.comp_def, bne]
  · rfl

@[simp] theorem renamings_shift (graph : Graph κ) :
    (shift offset graph).renamings = shift offset graph.renamings := by
  unfold renamings
  rw [equations_shift]
  refine foldl_shift offset (fun (table : Table Symbol Symbol) equation => ?_) graph.equations ∅
  rw [renames?_shift]
  cases renames? equation with
  | none => rfl
  | some target => exact Table.insert_shift offset table equation.symbol target

@[simp] theorem chainEnd_shift (table : Table Symbol Symbol) (fuel : Nat) (symbol : Symbol) :
    chainEnd (shift offset table) fuel (shift offset symbol) =
      shift offset (chainEnd table fuel symbol) := by
  induction fuel generalizing symbol with
  | zero => rfl
  | succ fuel ih =>
      rw [chainEnd, Table.find?_shift, chainEnd]
      cases table.find? symbol with
      | none => rfl
      | some next => exact ih next

theorem retarget_shift (ends : Table Symbol Symbol) (atom : Atom) :
    retarget (shift offset ends) (shift offset atom) =
      (retarget ends atom : Option (Expr κ)).map (shift offset) := by
  simp only [retarget, Atom.symbol_shift, Table.find?_shift, Atom.flatIndex_shift]
  cases ends.find? atom.symbol <;> simp

@[simp] theorem removeAlias_shift (ends : Table Symbol Symbol) (graph : Graph κ) (index : Nat) :
    removeAlias (shift offset ends) (shift offset graph) index =
      shift offset (removeAlias ends graph index) := by
  simp only [removeAlias, node?_shift]
  cases graph.node? index with
  | none => rfl
  | some node =>
      simp only [Option.map_some, Node.shift_symbol, Table.find?_shift]
      cases ends.find? node.symbol with
      | some target =>
          simp only [Option.map_some, removeNode_shift, shift_aliases, Tensor.ofSymbol_shift,
            Table.insert_shift]
          rfl
      | none =>
          have substituted := Tensor.substitute_shift offset node.value (retarget_shift offset ends)
          simp only [Option.map_none, Node.shift_reads, Node.shift_value, substituted,
            setValue_shift, List.any_map, Function.comp_def, Table.contains_shift, shift_ite]

@[simp] theorem eliminateAliases_shift (graph : Graph κ) :
    (shift offset graph).eliminateAliases = shift offset graph.eliminateAliases := by
  have ends : (⟨(shift offset graph.renamings).keys.map fun symbol =>
      (symbol, chainEnd (shift offset graph.renamings) (graph.renamings.size + 1) symbol)⟩ :
        Table Symbol Symbol) =
          shift offset ⟨graph.renamings.keys.map fun symbol =>
            (symbol, chainEnd graph.renamings (graph.renamings.size + 1) symbol)⟩ := by
    simp [Function.comp_def]
  have removed := foldl_shift offset
    (fun graph' index => removeAlias_shift offset (⟨graph.renamings.keys.map fun symbol =>
      (symbol, chainEnd graph.renamings (graph.renamings.size + 1) symbol)⟩ :
        Table Symbol Symbol) graph' index) graph.liveIndices graph
  simp only [shift_plain, List.map_id] at removed
  unfold eliminateAliases
  simp only [renamings_shift, Table.size_shift, Table.isEmpty_shift, ends, liveIndices_shift, removed]
  rw [shift_ite]
  rfl

instance : Numbered (Optimized κ) := ⟨fun offset outcome =>
  { outcome with
    graph := shift offset outcome.graph
    supply := shift offset outcome.supply }⟩

theorem optimized_shift (graph : Graph κ) (blind : graph.simplifier.Blind) (supply : SymbolSupply) :
    (shift offset graph).optimized (shift offset supply) =
      shift offset (graph.optimized supply) := by
  have wanted : ∀ graph : Graph κ,
      (if graph.settings.shareCommon then (shift offset graph).shareRepeated (shift offset supply)
        else (shift offset graph, 0, shift offset supply)) =
          shift offset (if graph.settings.shareCommon then graph.shareRepeated supply
            else (graph, 0, supply)) := by
    intro graph
    rw [shift_ite, shareRepeated_shift]
    rfl
  unfold optimized
  rw [shift_ite]
  refine ite_congr rfl (fun _ => ?_) fun _ => rfl
  simp only [simplifyValues_shift offset graph blind, shift_pair, foldDuplicates_shift,
    shift_settings, wanted, eliminateAliases_shift, relink_shift]
  rfl

theorem simplifier_foldStep (state : Folding κ) (index : Nat) :
    (foldStep state index).graph.simplifier = state.graph.simplifier := by
  unfold foldStep
  split
  · rfl
  · split
    · rfl
    · split <;> rfl

theorem simplifier_inlineOne (state : Graph κ × Nat) (index : Nat) :
    (inlineOne state index).1.simplifier = state.1.simplifier := by
  simp only [inlineOne]
  split
  · rfl
  · split
    · rfl
    · split <;> rfl

theorem simplifier_nameRepeated (graph : Graph κ) (supply : SymbolSupply) :
    (graph.nameRepeated supply).1.simplifier = graph.simplifier := by
  have revalued : (graph.revaluedBy (graph.sharingRun supply)).simplifier = graph.simplifier :=
    foldl_keeps simplifier (fun (graph : Graph κ) (entry : Nat × Tensor κ) =>
      (rfl : (graph.setValue entry.1 entry.2).simplifier = graph.simplifier)) _ _
  have appended : ∀ (temporaries : List (Symbol × Expr κ)) (graph : Graph κ),
      (temporaries.foldl appendTemporary graph).simplifier = graph.simplifier :=
    foldl_keeps simplifier fun _ _ => rfl
  rw [nameRepeated_fst, appended, revalued]

theorem simplifier_shareRepeated (graph : Graph κ) (supply : SymbolSupply) :
    (graph.shareRepeated supply).1.simplifier = graph.simplifier := by
  have inlined : ∀ (graph : Graph κ) (temporaries : List Nat),
      (graph.inlineSingleUse temporaries).1.simplifier = graph.simplifier := fun graph _ =>
    foldl_keeps (fun state : Graph κ × Nat => state.1.simplifier) simplifier_inlineOne _ (graph, 0)
  exact (inlined _ _).trans (simplifier_nameRepeated graph supply)

theorem simplifier_eliminateAliases (graph : Graph κ) :
    graph.eliminateAliases.1.simplifier = graph.simplifier := by
  unfold eliminateAliases
  dsimp only
  split
  · rfl
  · exact foldl_keeps simplifier (fun graph index => (removed_removeAlias _ graph index).simplifier)
      _ _

theorem simplifier_optimized (graph : Graph κ) (supply : SymbolSupply) :
    (graph.optimized supply).graph.simplifier = graph.simplifier := by
  have simplified : graph.simplifyValues.1.simplifier = graph.simplifier :=
    foldl_keeps (fun state : Graph κ × Nat => state.1.simplifier)
      (fun state index => simplifier_simplifyOne state.1 state.2 index) graph.liveIndices (graph, 0)
  have folded : ∀ graph : Graph κ, graph.foldDuplicates.1.simplifier = graph.simplifier :=
    fun graph => foldl_keeps (fun state : Folding κ => state.graph.simplifier) simplifier_foldStep
      graph.liveIndices ⟨graph, [], 0⟩
  have shared : ∀ graph : Graph κ, (if graph.settings.shareCommon then graph.shareRepeated supply
      else (graph, 0, supply)).1.simplifier = graph.simplifier := by
    intro graph
    split
    · exact simplifier_shareRepeated graph supply
    · rfl
  rw [optimized]
  split
  · simp only [relink, simplifier_eliminateAliases, shared, folded, simplified]
  · rfl

@[simp] theorem unbound?_shift (graph : Graph κ) :
    (shift offset graph).unbound? = graph.unbound?.map (shift offset) := by
  simp only [unbound?, liveNodes_shift, List.findSome?_map, List.map_findSome?]
  refine congrArg (List.findSome? · _) (funext fun node => ?_)
  simp only [Function.comp_apply, Node.shift_reads, List.find?_map, Function.comp_def,
    isDefined_shift, isInput_shift, Option.map_map, Symbol.shift_name]
  rfl

@[simp] theorem finished_shift (graph : Graph κ) (levels : List (List Nat)) :
    (shift offset graph).finished levels = shift offset (graph.finished levels) := rfl

@[simp] theorem report_shift (outcome : Optimized κ) (before after : Graph κ) :
    (shift offset outcome).report (shift offset before) (shift offset after) =
      outcome.report before after := by
  simp only [Optimized.report, size_shift, operations_shift]
  rfl

end Mechanism.Graph
