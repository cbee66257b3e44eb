import Mechanism.Double
import Mechanism.Proofs.Expr.Folded
import Mechanism.Proofs.Graph.Footing
import Mechanism.Proofs.Tensor.Matrices

/-!
When a symbol has numbers. It has, if all inputs that it depends on are bound to numbers and no power
or function refuses some of them. Inputs that are not bound to numbers may still get lost in a
definition, and the numbers are then what the symbol comes to whatever values they have.
-/

open Relation (ReflTransGen TransGen)

namespace Mechanism

namespace Tensor

variable {κ : Type} [Scalar κ] {tensor : Tensor κ} {numbers : List κ}

theorem entry_of_numbers {index : Nat} {entry : Expr κ} (known : tensor.numbers? = some numbers)
    (found : tensor.entryAt index = .ok entry) :
    ∃ number, numbers[index]? = some number ∧ entry = .num number := by
  have same := congrArg (fun list => list[index]?) (numbers?_eq_some.mp known)
  simp only [List.getElem?_map, (entryAt_eq_ok.mp found).2, Option.map_some] at same
  obtain ⟨number, there, here⟩ := Option.map_eq_some_iff.mp same.symm
  exact ⟨number, there, Expr.asNumber?_eq_some.mp here.symm⟩

theorem number_of_mem (known : tensor.numbers? = some numbers) {entry : Expr κ}
    (member : entry ∈ tensor.entries) : ∃ number, entry = .num number := by
  have among : entry.asNumber? ∈ numbers.map some :=
    numbers?_eq_some.mp known ▸ List.mem_map_of_mem member
  obtain ⟨number, _, same⟩ := List.mem_map.mp among
  exact ⟨number, Expr.asNumber?_eq_some.mp same.symm⟩

theorem Issued.exists_entryAt {limit : Nat} (issued : tensor.Issued limit) {index : Nat}
    (bound : index < tensor.shape.size) : ∃ entry, tensor.entryAt index = .ok entry := by
  have inside : index < tensor.entries.length := by rwa [issued.length_eq]
  exact ⟨tensor.entries[index], entryAt_eq_ok.mpr ⟨bound, List.getElem?_eq_getElem inside⟩⟩

theorem numbers?_substitute {replacement : Atom → Option (Expr κ)}
    (each : ∀ entry ∈ tensor.entries, ∃ value, entry.substitute replacement = .num value) :
    ∃ numbers, (tensor.substitute replacement).numbers? = some numbers := by
  obtain ⟨numbers, folded⟩ := Expr.map_substitute_nums each
  refine ⟨numbers, numbers?_eq_some.mpr ?_⟩
  change (tensor.entries.map (Expr.substitute replacement)).map Expr.asNumber? = _
  rw [folded, List.map_map]
  rfl

end Tensor

namespace Graph

variable {κ : Type} [Scalar κ] {limit : Nat} {session : Session κ} {symbol input read : Symbol}
  {node : Node κ} {numbers : List κ}

/-- The input is bound, and every entry of its binding is a number. -/
def BoundToNumbers (session : Session κ) (input : Symbol) : Prop :=
  ∃ binding, session.graph.store.binding? input = some binding ∧
    ∀ index < input.shape.size, ∃ value, binding.entryAt index = .ok (.num value)

theorem current_of_input {atom : Atom} (isInput : session.graph.isInput atom.symbol = true) :
    current session atom = (session.graph.store.binding? atom.symbol).bind fun binding =>
      (binding.entryAt atom.flatIndex).toOption := by
  rw [current, isInput, if_pos rfl]
  rfl

theorem current_of_live (valid : session.graph.Valid limit) {atom : Atom}
    (found : session.graph.nodeOf? atom.symbol = some node)
    (acyclic : session.graph.AcyclicBelow atom.symbol) :
    current session atom =
      ((node.value.substitute (current session)).entryAt atom.flatIndex).toOption := by
  rw [current, valid.toLawful.noInput found, isDefined_iff.mpr ⟨node, found⟩,
    answer_eq valid found acyclic]
  rfl

theorem BoundToNumbers.current {atom : Atom} (bound : BoundToNumbers session atom.symbol)
    (isInput : session.graph.isInput atom.symbol = true) (within : atom.Within) :
    ∃ value, Graph.current session atom = some (.num value) := by
  obtain ⟨binding, found, numbers⟩ := bound
  obtain ⟨value, entry⟩ := numbers atom.flatIndex within
  exact ⟨value, by rw [current_of_input isInput, found, Option.bind_some, entry]; rfl⟩

theorem numbers_of_live (valid : session.graph.Valid limit)
    (found : session.graph.nodeOf? symbol = some node)
    (acyclic : session.graph.AcyclicBelow symbol) :
    numbers? session symbol = (node.value.substitute (current session)).numbers? := by
  rw [numbers?, answer_eq valid found acyclic]
  rfl

theorem current_of_numbers (valid : session.graph.Valid limit) {atom : Atom}
    (found : session.graph.nodeOf? atom.symbol = some node)
    (acyclic : session.graph.AcyclicBelow atom.symbol) (within : atom.Within)
    (known : numbers? session atom.symbol = some numbers) :
    ∃ value, current session atom = some (.num value) := by
  have regular := valid.toLawful.regular_of_nodeOf? found
  have inside : atom.flatIndex < node.value.shape.size := by
    rwa [regular.shape_eq, valid.toLawful.symbol_eq found]
  obtain ⟨entry, there⟩ := regular.value.exists_entryAt inside
  have here : (node.value.substitute (current session)).entryAt atom.flatIndex =
      .ok (entry.substitute (current session)) := Tensor.entryAt_substitute.mpr ⟨entry, there, rfl⟩
  rw [numbers_of_live valid found acyclic] at known
  obtain ⟨number, _, same⟩ := Tensor.entry_of_numbers known here
  exact ⟨number, by rw [current_of_live valid found acyclic, here, same]; rfl⟩

/-- Nothing that the symbol depends on refuses the numbers that it is given at present. -/
def Accepts (session : Session κ) (symbol : Symbol) : Prop :=
  ∀ reader node, ReflTransGen session.graph.ReadBy reader symbol →
    session.graph.nodeOf? reader = some node →
      ∀ entry ∈ node.value.entries, entry.Unrefused (current session)

/-- All inputs that the symbol depends on are bound to numbers. -/
def InputsNumbered (session : Session κ) (symbol : Symbol) : Prop :=
  ∀ input, session.graph.isInput input = true → TransGen session.graph.ReadBy input symbol →
    BoundToNumbers session input

theorem Accepts.of_readBy (accepts : Accepts session symbol)
    (reads : session.graph.ReadBy read symbol) : Accepts session read :=
  fun reader node below => accepts reader node (below.tail reads)

theorem InputsNumbered.of_readBy (inputs : InputsNumbered session symbol)
    (reads : session.graph.ReadBy read symbol) : InputsNumbered session read :=
  fun input isInput below => inputs input isInput (below.tail reads)

theorem exists_numbers (valid : session.graph.Valid limit) (placed : session.graph.Placed)
    (bound : session.graph.Bound)
    (acyclic : session.graph.AcyclicBelow symbol)
    (found : session.graph.nodeOf? symbol = some node)
    (inputs : InputsNumbered session symbol) (accepts : Accepts session symbol) :
    ∃ numbers, numbers? session symbol = some numbers := by
  have founded := acyclic.acc valid.toLawful
  induction founded generalizing node with
  | intro symbol _ ih =>
      have regular := valid.toLawful.regular_of_nodeOf? found
      obtain ⟨numbers, numeric⟩ : ∃ numbers,
          (node.value.substitute (current session)).numbers? = some numbers := by
        refine Tensor.numbers?_substitute fun entry among => ?_
        refine (accepts symbol node .refl found entry among).folds fun atom occurs => ?_
        have member : atom ∈ node.value.atoms := Tensor.mem_atoms.mpr ⟨entry, among, occurs⟩
        have within := (placed.of_nodeOf? found).value atom member
        have reads : session.graph.ReadBy atom.symbol symbol :=
          ⟨node, found, regular.mem_reads member⟩
        rcases bound symbol node found atom.symbol (regular.mem_reads member) with live | isInput
        · have dependent : session.graph.Reads atom.symbol symbol :=
            ⟨node, found, regular.mem_reads member, live⟩
          obtain ⟨inner, innerFound⟩ := isDefined_iff.mp live
          have innerAcyclic := acyclic.of_reads dependent
          obtain ⟨numbers, known⟩ := ih atom.symbol dependent innerAcyclic innerFound
            (inputs.of_readBy reads) (accepts.of_readBy reads)
          exact current_of_numbers valid innerFound innerAcyclic within known
        · exact (inputs atom.symbol isInput (.single reads)).current isInput within
      exact ⟨numbers, (numbers_of_live valid found acyclic).trans numeric⟩

/-- A symbol has numbers although its definition reads another one that has none: where it reads
numbers only of that one, or where an entry that is no number gets lost in a sum, a product, a power
or a choice. -/
structure Omits (session : Session κ) (reader read : Symbol) : Prop where
  numbered : ∃ numbers, numbers? session reader = some numbers
  input : session.graph.isInput read = true → ¬BoundToNumbers session read
  defined : session.graph.isDefined read = true → numbers? session read = none
  lost : ∃ node, session.graph.nodeOf? reader = some node ∧ read ∈ node.reads ∧
    ((∀ atom ∈ node.value.atoms, atom.symbol = read →
        ∃ value, current session atom = some (.num value)) ∨
      ∃ entry ∈ node.value.entries, ∃ part ∈ entry.parts, part.absorbs = true ∧
        ∃ atom : Atom, atom.symbol = read ∧ part.Loses (current session) atom)

theorem omits (valid : session.graph.Valid limit) (acyclic : session.graph.AcyclicBelow symbol)
    (known : numbers? session symbol = some numbers) (reads : session.graph.ReadBy read symbol)
    (input : session.graph.isInput read = true → ¬BoundToNumbers session read)
    (defined : session.graph.isDefined read = true → numbers? session read = none) :
    Omits session symbol read := by
  obtain ⟨node, found, member⟩ := reads
  refine ⟨⟨numbers, known⟩, input, defined, node, found, member, ?_⟩
  by_contra! neither
  obtain ⟨⟨atom, among, same, symbolic⟩, kept⟩ := neither
  obtain ⟨entry, inside, occurs⟩ := Tensor.mem_atoms.mp among
  rw [numbers_of_live valid found acyclic] at known
  obtain ⟨number, folded⟩ := Tensor.number_of_mem known (List.mem_map_of_mem inside)
  have none : (Expr.replacementOf (current session) atom).asNumber? = none := by
    cases present : current session atom with
    | none =>
        rw [Expr.replacementOf, present, Option.getD_none]
        rfl
    | some entry =>
        rw [Expr.replacementOf, present, Option.getD_some, Option.eq_none_iff_forall_ne_some]
        intro value isNumber
        exact symbolic value (by rw [present, Expr.asNumber?_eq_some.mp isNumber])
  obtain ⟨part, below, loses⟩ := Expr.exists_loses occurs none folded
  exact kept entry inside part below loses.absorbs atom same loses

/-- An input that is not bound to numbers gets lost on the way to any symbol that has numbers. -/
theorem numbered_or_omitted (valid : session.graph.Valid limit)
    (acyclic : session.graph.AcyclicBelow symbol) (known : numbers? session symbol = some numbers)
    (isInput : session.graph.isInput input = true)
    (depends : TransGen session.graph.ReadBy input symbol) :
    BoundToNumbers session input ∨ ∃ reader read, ReflTransGen session.graph.ReadBy input read ∧
      ReflTransGen session.graph.ReadBy reader symbol ∧ Omits session reader read := by
  induction depends generalizing numbers with
  | single reads =>
      by_cases numbered : BoundToNumbers session input
      · exact .inl numbered
      · refine .inr ⟨_, input, .refl, .refl, omits valid acyclic known reads (fun _ => numbered) ?_⟩
        intro live
        rw [valid.toLawful.apart isInput] at live
        cases live
  | @tail middle last before reads ih =>
      obtain ⟨_, _, node, found, _⟩ := TransGen.tail'_iff.mp before
      have live := isDefined_iff.mpr ⟨node, found⟩
      cases numeric : numbers? session middle with
      | none =>
          refine .inr ⟨last, middle, before.to_reflTransGen, .refl,
            omits valid acyclic known reads (fun isInput => ?_) fun _ => numeric⟩
          rw [valid.toLawful.noInput found] at isInput
          cases isInput
      | some values =>
          obtain ⟨reader, readerFound, member⟩ := id reads
          refine (ih (acyclic.of_reads ⟨reader, readerFound, member, live⟩) numeric).imp_right ?_
          rintro ⟨reader, read, above, below, lost⟩
          exact ⟨reader, read, above, below.tail reads, lost⟩

section

variable [Exact κ]

/-- Values of the inputs that agree with their bindings: an input without a binding has the value of
its own symbol. -/
structure FitsBindings (session : Session κ) (environment : Environment) (inputs : Symbol → Nat → ℝ) :
    Prop where
  bound : ∀ {input : Symbol} {binding : Tensor κ},
    session.graph.store.binding? input = some binding →
      ∀ index < input.shape.size, binding.MeansAt environment index (inputs input index)
  free : ∀ {input : Symbol}, session.graph.isInput input = true →
    session.graph.store.binding? input = none →
      ∀ index, environment input index = some (inputs input index)

variable {environment : Environment} {inputs : Symbol → Nat → ℝ}

theorem answer_means (valid : session.graph.Valid limit) (placed : session.graph.Placed)
    (bound : session.graph.Bound)
    (fits : FitsBindings session environment inputs) {index : Nat} {value : ℝ}
    (unfolds : session.graph.Unfolds inputs symbol index value)
    (found : session.graph.nodeOf? symbol = some node)
    (acyclic : session.graph.AcyclicBelow symbol) :
    (node.value.substitute (current session)).MeansAt environment index value := by
  induction unfolds generalizing node with
  | input isInput =>
      rw [valid.toLawful.noInput found] at isInput
      cases isInput
  | @content symbol index value tensor _ stands inner unfolded means ih =>
      have regular := valid.toLawful.regular_of_nodeOf? found
      rw [content?, found, Option.some.injEq] at stands
      subst stands
      refine means.substitute fun atom member number known => ?_
      have reads := regular.mem_reads member
      have within := (placed.of_nodeOf? found).value atom member
      rcases bound symbol node found atom.symbol reads with live | isInput
      · obtain ⟨other, otherFound⟩ := isDefined_iff.mp live
        have below := acyclic.of_reads ⟨node, found, reads, live⟩
        obtain ⟨entry, here, entryMeans⟩ := ih _ _ _ known otherFound below
        rwa [Expr.replacementOf, current_of_live valid otherFound below, here]
      · have fixed : inputs atom.symbol atom.flatIndex = number := by
          have leaf := unfolded _ _ _ known
          exact (Unfolds.input isInput).unique leaf
        cases binding : session.graph.store.binding? atom.symbol with
        | some tensor =>
            obtain ⟨entry, here, entryMeans⟩ := fits.bound binding atom.flatIndex within
            rw [fixed] at entryMeans
            rwa [Expr.replacementOf, current_of_input isInput, binding, Option.bind_some, here]
        | none =>
            rw [Expr.replacementOf, current_of_input isInput, binding, Option.bind_none,
              Option.getD_none, Expr.means_atom, Environment.read, fits.free isInput binding, fixed]

end

theorem eq_or_eq_of_reads {graph : Graph κ} {leaf reader : Symbol}
    (undefined : graph.nodeOf? leaf = none)
    (only : (graph.nodeOf? symbol).map Node.reads = some [leaf])
    (below : ReflTransGen graph.ReadBy reader symbol) : reader = symbol ∨ reader = leaf := by
  rcases below.cases_tail with rfl | ⟨middle, above, node, found, member⟩
  · exact .inl rfl
  · rw [found, Option.map_some, Option.some.injEq] at only
    rw [only, List.mem_singleton] at member
    subst member
    rcases above.cases_tail with rfl | ⟨_, _, other, live, _⟩
    · exact .inr rfl
    · rw [undefined] at live
      cases live

theorem inputsNumbered_of_reads (valid : session.graph.Valid limit) {leaf : Symbol}
    (undefined : session.graph.nodeOf? leaf = none)
    (only : (session.graph.nodeOf? symbol).map Node.reads = some [leaf])
    (bound : BoundToNumbers session leaf) : InputsNumbered session symbol := by
  intro input isInput depends
  rcases eq_or_eq_of_reads undefined only depends.to_reflTransGen with rfl | rfl
  · obtain ⟨node, found, _⟩ := Option.map_eq_some_iff.mp only
    rw [valid.toLawful.noInput found] at isInput
    cases isInput
  · exact bound

namespace Vanishing

def x : Symbol := ⟨1, "x", .scalar, .real⟩

def y : Symbol := ⟨2, "y", .scalar, .real⟩

def s : Symbol := ⟨3, "s", .scalar, .real⟩

def r : Symbol := ⟨4, "r", .scalar, .real⟩

def t : Symbol := ⟨5, "t", .scalar, .real⟩

def scalar (symbol : Symbol) : Expr Float := .atom (.whole symbol)

def product : Expr Float := .mul [scalar x, scalar y]

def reciprocal : Expr Float := .pow (scalar x) (.num (-1))

def root : Expr Float := .call .sqrt (.add [scalar x, .num 4])

/-- The input `x` is bound to zero, and the input `y` is not bound. -/
def declared : Session Float :=
  (Command.declareInput y (.only .parameter) none).apply
    ((Command.declareInput x (.only .parameter) (some (.ofExpr .zero))).apply
      ⟨ofSettings .standard Simplifier.keep, ⟨6⟩⟩)

def registered : Session Float :=
  (Command.register "t" t (.ofExpr root) (.only .state)).apply
    ((Command.register "r" r (.ofExpr reciprocal) (.only .state)).apply
      ((Command.register "s" s (.ofExpr product) (.only .state)).apply declared))

theorem regular_whole {expr : Expr Float}
    (atoms : ∀ atom ∈ expr.occurrences, atom = .whole x ∨ atom = .whole y) :
    (Tensor.ofExpr expr).Regular 6 where
  length_eq := rfl
  entries := by
    intro entry among atom occurs
    obtain rfl := List.mem_singleton.mp among
    rcases atoms atom occurs with rfl | rfl
    · exact ⟨Nat.zero_lt_one, by decide⟩
    · exact ⟨Nat.zero_lt_one, by decide⟩

theorem reachable : Reachable Simplifier.keep registered := by
  have inputs : Reachable Simplifier.keep declared := by
    refine Reachable.step _ (Reachable.step _ (Reachable.start ⟨6⟩ new_standard) ?_) ?_
    · exact (by decide : 1 < 6)
    · exact (by decide : 2 < 6)
  refine Reachable.step _ (Reachable.step _ (Reachable.step _ inputs ?_) ?_) ?_
  · exact ⟨(by decide : 3 < 6), regular_whole (by decide)⟩
  · exact ⟨(by decide : 4 < 6), regular_whole (by decide)⟩
  · exact ⟨(by decide : 5 < 6), regular_whole (by decide)⟩

theorem bound_registered : registered.graph.Bound :=
  (unbound?_eq_none (reachable.fit Simplifier.keep_tame).valid.toLawful).mp
    (by with_unfolding_all rfl)

theorem acyclic_registered : registered.graph.Acyclic := by
  have levels : registered.graph.findLevels = .ok [[0, 1, 2]] := by with_unfolding_all rfl
  exact ((reachable.fit Simplifier.keep_tame).valid.toLawful.orderly_of_levels bound_registered
    levels).acyclic

theorem undefined_x : registered.graph.nodeOf? x = none := by with_unfolding_all rfl

theorem inputsNumbered {symbol : Symbol}
    (reads : (registered.graph.nodeOf? symbol).map Node.reads = some [x]) :
    InputsNumbered registered symbol := by
  have bound : registered.graph.store.binding? x = some (.ofExpr .zero) := by
    with_unfolding_all rfl
  refine inputsNumbered_of_reads (reachable.fit Simplifier.keep_tame).valid undefined_x reads
    ⟨.ofExpr .zero, bound, fun index within => ⟨0, ?_⟩⟩
  rw [Nat.lt_one_iff.mp within]
  rfl

theorem reads_t : (registered.graph.nodeOf? t).map Node.reads = some [x] := by
  with_unfolding_all rfl

theorem readBy_y : registered.graph.ReadBy y s := by
  have reads : (registered.graph.nodeOf? s).map Node.reads = some [x, y] := by
    with_unfolding_all rfl
  obtain ⟨node, found, same⟩ := Option.map_eq_some_iff.mp reads
  exact ⟨node, found, by rw [same]; exact List.mem_cons_of_mem _ List.mem_cons_self⟩

theorem not_boundToNumbers_y : ¬BoundToNumbers registered y := by
  rintro ⟨binding, found, _⟩
  rw [show registered.graph.store.binding? y = none by with_unfolding_all rfl] at found
  cases found

theorem numbers_s : numbers? registered s = some [0] := by with_unfolding_all rfl

theorem accepts_t : Accepts registered t := by
  intro reader node below found entry among
  rcases eq_or_eq_of_reads undefined_x reads_t below with rfl | rfl
  · have value : (registered.graph.nodeOf? t).map Node.value = some (.ofExpr root) := by
      with_unfolding_all rfl
    rw [found, Option.map_some, Option.some.injEq] at value
    rw [value] at among
    obtain rfl := List.mem_singleton.mp among
    have sum : (Expr.add [scalar x, .num 4]).substitute (current registered) = .num 4 := by
      with_unfolding_all rfl
    refine .call (.add ?_) fun argument isArgument => ?_
    · simp only [List.mem_cons, List.not_mem_nil, or_false, forall_eq_or_imp, forall_eq]
      exact ⟨.atom _, .num 4⟩
    · rw [sum] at isArgument
      cases isArgument
      exact ⟨2, by with_unfolding_all decide, by decide⟩
  · rw [undefined_x] at found
    cases found

end Vanishing

theorem Unfolds.ofSymbol [Exact κ] {graph : Graph κ} {inputs : Symbol → Nat → ℝ} {target : Symbol}
    (noInput : graph.isInput symbol = false)
    (found : graph.content? symbol = some (.ofSymbol target)) {index : Nat} {value : ℝ}
    (within : index < target.shape.size) (unfolds : graph.Unfolds inputs target index value) :
    graph.Unfolds inputs symbol index value := by
  refine .content noInput found
    (fun other position => if other = target ∧ position = index then some value else none) ?_
    (Tensor.meansAt_ofSymbol.mpr ⟨within, if_pos ⟨rfl, rfl⟩⟩)
  intro other position number known
  split at known
  · rename_i same
    obtain ⟨rfl, rfl⟩ := same
    cases known
    exact unfolds
  · cases known

namespace Chained

theorem bindings_registered : registered.graph.store.bindings =
    (Table.empty : Table Symbol (Tensor RealNumber)).insert x (.ofExpr .one) := by
  with_unfolding_all rfl

theorem fitsBindings_ones : FitsBindings registered (fun _ _ => some 1) fun _ _ => 1 where
  bound := by
    intro input binding found index within
    rw [Store.binding?, bindings_registered, Table.find?_insert] at found
    split at found
    · rename_i same
      subst same
      cases found
      refine ⟨.one, ?_, (Expr.means_num 1 1).mpr rfl⟩
      rw [Nat.lt_one_iff.mp within]
      rfl
    · cases found
  free := fun _ _ _ => rfl

theorem undefined_x : registered.graph.nodeOf? x = none :=
  by with_unfolding_all rfl

theorem reads_m : (registered.graph.nodeOf? m).map Node.reads = some [x] := by with_unfolding_all rfl

theorem inputsNumbered_m : InputsNumbered registered m := by
  have bound : BoundToNumbers registered x := by
    refine ⟨.ofExpr .one, by rw [Store.binding?, bindings_registered]; rfl, fun index within => ⟨1, ?_⟩⟩
    rw [Nat.lt_one_iff.mp within]
    rfl
  exact inputsNumbered_of_reads (reachable.fit Simplifier.keep_tame).valid undefined_x reads_m bound

theorem accepts_m : Accepts registered m := by
  intro reader node below found entry among
  rcases eq_or_eq_of_reads undefined_x reads_m below with rfl | rfl
  · have value : (registered.graph.nodeOf? m).map Node.value = some (.ofSymbol x) := by
      with_unfolding_all rfl
    rw [found, Option.map_some, Option.some.injEq] at value
    rw [value] at among
    obtain ⟨atom, _, rfl⟩ := List.mem_map.mp among
    exact .atom atom
  · rw [undefined_x] at found
    cases found

theorem bound_registered : registered.graph.Bound :=
  (unbound?_eq_none (reachable.fit Simplifier.keep_tame).valid.toLawful).mp
    (by with_unfolding_all rfl)

theorem unfolds_m (inputs : Symbol → Nat → ℝ) :
    registered.graph.Unfolds inputs m 0 (inputs x 0) := by
  have content : registered.graph.content? m = some (.ofSymbol x) := by with_unfolding_all rfl
  have within : 0 < x.shape.size := by decide
  exact .ofSymbol (by with_unfolding_all rfl) content within (.input (by with_unfolding_all rfl))

end Chained

end Graph

end Mechanism
