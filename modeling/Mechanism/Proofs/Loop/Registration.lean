import Mechanism.Loop.Registration
import Mechanism.Proofs.Graph.Redefinition
import Mechanism.Proofs.Tensor.Reads

/-!
What a graph says of a loop that has been registered in it. Each stage of a registration defines
new symbols or the rates of the dependent coordinates, and leaves everything else as it is.
-/

namespace Mechanism.Loop

variable {κ α β : Type} [Scalar κ]

namespace Action

def perform (action : Action κ α) (session : Graph.Session κ) :
    Except (LoopError κ) α × Graph.Session κ :=
  action.run.run session

variable {session later : Graph.Session κ} {value : α}

theorem perform_bind (action : Action κ β) (next : β → Action κ α) :
    (action >>= next).perform session =
      match action.perform session with
      | (.ok first, middle) => (next first).perform middle
      | (.error error, middle) => (.error error, middle) := by
  change ((action.run >>= ExceptT.bindCont next).run session) = _
  rw [StateT.run_bind]
  change (match action.run.run session with | (first, middle) => _) = _
  unfold perform
  rcases action.run.run session with ⟨_ | _, middle⟩ <;> rfl

theorem perform_onGraph (action : Graph.Action κ α) :
    (onGraph action).perform session =
      match action.perform session with
      | (.ok result, middle) => (.ok result, middle)
      | (.error error, middle) => (.error (.graph error), middle) := by
  have lifted : (liftM action.run : Action κ (Except (GraphError κ) α)).perform session =
      (.ok (action.perform session).1, (action.perform session).2) := rfl
  rw [onGraph, perform_bind]
  erw [lifted]
  rcases action.perform session with ⟨_ | _, _⟩ <;> rfl

theorem bind_eq_ok {action : Action κ β} {next : β → Action κ α} :
    (action >>= next).perform session = (.ok value, later) ↔
      ∃ first middle, action.perform session = (.ok first, middle) ∧
        (next first).perform middle = (.ok value, later) := by
  rw [perform_bind]
  rcases action.perform session with ⟨_ | _, _⟩ <;> simp

theorem pure_eq_ok {result : α} :
    (pure result : Action κ α).perform session = (.ok value, later) ↔
      result = value ∧ session = later := by
  change (Except.ok result, session) = (Except.ok value, later) ↔ _
  simp

theorem onGraph_eq_ok {action : Graph.Action κ α} :
    (onGraph action).perform session = (.ok value, later) ↔
      action.perform session = (.ok value, later) := by
  rw [perform_onGraph]
  rcases action.perform session with ⟨_ | _, _⟩ <;> simp

theorem ofAlgebra_eq_ok {result : Except AlgebraError α} :
    (ofAlgebra result : Action κ α).perform session = (.ok value, later) ↔
      result = .ok value ∧ session = later := by
  cases result with
  | error error =>
      change (Except.error (LoopError.algebra error), session) = (Except.ok value, later) ↔ _
      simp
  | ok first => simp [ofAlgebra, pure_eq_ok]

end Action

/-- An atom of a symbol that has been issued and is none of the given ones. -/
structure Clear (limit : Nat) (symbols : List Symbol) (atom : Atom) : Prop where
  regular : atom.Regular limit
  outside : atom.symbol ∉ symbols

theorem Clear.mono {limit more : Nat} {symbols fewer : List Symbol} {atom : Atom}
    (clear : Clear limit symbols atom) (le : limit ≤ more)
    (subset : ∀ symbol ∈ fewer, symbol ∈ symbols) : Clear more fewer atom :=
  ⟨⟨clear.regular.within, clear.regular.issued.trans_le le⟩,
    fun member => clear.outside (subset _ member)⟩

theorem regular_of_clear {limit more : Nat} {symbols : List Symbol} {value : Tensor κ}
    (reads : value.ReadsOnly (Clear limit symbols)) (le : limit ≤ more) : value.Regular more :=
  (reads.mono fun _ clear => (clear.mono le fun _ member => member).regular).regular

/-- The first session comes to the second one by definitions, which leave the spared symbols as
they are. -/
structure Grown (spared : Symbol → Prop) (before after : Graph.Session κ) : Prop where
  valid : after.graph.Valid after.supply.next
  supply : before.supply.next ≤ after.supply.next
  kept : ∀ {symbol : Symbol} {node : Graph.Node κ}, before.graph.nodeOf? symbol = some node →
    after.graph.nodeOf? symbol = some node
  nodeOf?_eq : ∀ {symbol : Symbol}, spared symbol →
    after.graph.nodeOf? symbol = before.graph.nodeOf? symbol
  aliases : ∀ {symbol : Symbol}, spared symbol →
    after.graph.aliases.find? symbol = before.graph.aliases.find? symbol

variable {spared fewer : Symbol → Prop} {first second third session later : Graph.Session κ}
  {symbol : Symbol} {value : Tensor κ} {done : Unit}

theorem Grown.refl (valid : session.graph.Valid session.supply.next) :
    Grown spared session session :=
  ⟨valid, le_rfl, fun found => found, fun _ => rfl, fun _ => rfl⟩

theorem Grown.trans (left : Grown spared first second) (right : Grown spared second third) :
    Grown spared first third where
  valid := right.valid
  supply := left.supply.trans right.supply
  kept := fun found => right.kept (left.kept found)
  nodeOf?_eq := fun among => (right.nodeOf?_eq among).trans (left.nodeOf?_eq among)
  aliases := fun among => (right.aliases among).trans (left.aliases among)

theorem Grown.mono (grown : Grown spared first second)
    (le : ∀ symbol, fewer symbol → spared symbol) : Grown fewer first second where
  valid := grown.valid
  supply := grown.supply
  kept := grown.kept
  nodeOf?_eq := fun among => grown.nodeOf?_eq (le _ among)
  aliases := fun among => grown.aliases (le _ among)

theorem Grown.carries [Exact κ] (grown : Grown spared first second)
    (carries : first.graph.Carries symbol value)
    (reads : value.ReadsOnly fun atom => spared atom.symbol) :
    second.graph.Carries symbol value := by
  refine carries.kept (fun _ found => grown.kept found) fun read member => grown.aliases ?_
  obtain ⟨atom, among, rfl⟩ := Tensor.mem_symbols.mp member
  exact reads.atoms among

theorem define_eq_ok :
    (define symbol value).perform session = (.ok done, later) ↔ ∃ graph,
      Graph.addEquation symbol.name symbol value (.only .loopInternal) session.graph = .ok graph ∧
        later = { session with graph := graph } := by
  unfold define
  simp only [Action.bind_eq_ok, Action.onGraph_eq_ok, Action.pure_eq_ok, Graph.perform_register]
  constructor
  · rintro ⟨_, _, ran, -, rfl⟩
    split at ran
    · rename_i graph added
      cases ran
      exact ⟨graph, added, rfl⟩
    · cases ran
  · rintro ⟨graph, added, rfl⟩
    exact ⟨symbol, _, by rw [added], trivial, rfl⟩

theorem define_grown (valid : session.graph.Valid session.supply.next)
    (issued : symbol.number < session.supply.next) (regular : value.Regular session.supply.next)
    (ran : (define symbol value).perform session = (.ok done, later)) :
    Grown (· ≠ symbol) session later ∧ later.supply = session.supply := by
  obtain ⟨graph, added, rfl⟩ := define_eq_ok.mp ran
  refine ⟨⟨valid.addEquation issued regular.toIssued added, le_rfl, ?_, ?_, ?_⟩, rfl⟩
  · exact fun found => Graph.nodeOf?_addEquation_kept valid.toLawful found added
  · exact fun differs => Graph.nodeOf?_addEquation_of_ne valid.toLawful (Ne.symm differs) added
  · exact fun differs => Graph.find?_aliases_addEquation (Ne.symm differs) added

variable [Exact κ]

theorem define_carries (valid : session.graph.Valid session.supply.next)
    (regular : value.Regular session.supply.next) (apart : symbol ∉ value.symbols)
    (new : ∀ node, session.graph.nodeOf? symbol = some node → node.registered ≠ value)
    (ran : (define symbol value).perform session = (.ok done, later)) :
    later.graph.Carries symbol value := by
  obtain ⟨graph, added, rfl⟩ := define_eq_ok.mp ran
  exact valid.toLawful.carries regular apart new added

structure Introduces (rows columns : Nat) (value : Tensor κ) (symbol : Symbol)
    (before after : Graph.Session κ) : Prop where
  shape_eq : symbol.shape = Shape.ofDimensions rows columns
  value_shape : value.shape = Shape.ofDimensions rows columns
  fresh : before.supply.next ≤ symbol.number
  issued : symbol.number < after.supply.next
  grown : Grown (fun other => other.number < before.supply.next) before after
  carries : after.graph.Carries symbol value

theorem defineNew_introduces {name : String} {rows columns : Nat}
    (valid : session.graph.Valid session.supply.next) (regular : value.Regular session.supply.next)
    (ran : (defineNew name rows columns value).perform session = (.ok symbol, later)) :
    Introduces rows columns value symbol session later := by
  unfold defineNew at ran
  simp only [Action.bind_eq_ok, Action.onGraph_eq_ok, Action.pure_eq_ok,
    Graph.Action.perform_freshSymbol] at ran
  obtain ⟨symbol, middle, made, _, later, defined, rfl, rfl⟩ := ran
  obtain ⟨shape, number, graph, supply⟩ : symbol.shape = Shape.ofDimensions rows columns ∧
      symbol.number = session.supply.next ∧ middle.graph = session.graph ∧
        middle.supply.next = session.supply.next + 1 := by
    cases made
    exact ⟨rfl, rfl, rfl, rfl⟩
  have next : session.supply.next ≤ middle.supply.next := supply ▸ Nat.le_succ _
  have wider : middle.graph.Valid middle.supply.next := graph ▸ valid.mono next
  have undefined : middle.graph.isDefined symbol = false := by
    rw [graph, ← Bool.not_eq_true]
    intro live
    exact absurd (valid.toLawful.defined_issued live) (number ▸ lt_irrefl _)
  have differs {other : Symbol} (old : other.number < session.supply.next) : other ≠ symbol := by
    rintro rfl
    exact absurd old (number ▸ lt_irrefl _)
  obtain ⟨grown, same⟩ := define_grown wider (by omega) (regular.mono next) defined
  refine ⟨shape, ?_, number.ge, ?_, ⟨grown.valid, next.trans grown.supply, ?_, ?_, ?_⟩, ?_⟩
  · obtain ⟨_, added, _⟩ := define_eq_ok.mp defined
    obtain ⟨_, resolved, _⟩ := Graph.addEquation_new undefined added
    rw [← shape, ← resolved, Graph.shape_resolveAliases]
  · rw [same]
    omega
  · exact fun found => grown.kept (graph ▸ found)
  · exact fun old => graph ▸ grown.nodeOf?_eq (differs old)
  · exact fun old => graph ▸ grown.aliases (differs old)
  · refine define_carries wider (regular.mono next) ?_ ?_ defined
    · intro reads
      obtain ⟨atom, among, here⟩ := Tensor.mem_symbols.mp reads
      exact differs (regular.atoms among).issued here
    · intro node found
      exact absurd (Graph.isDefined_iff.mpr ⟨node, found⟩) (by simp [undefined])

omit [Exact κ] in
theorem readsOnly_entryAt {allowed : Atom → Prop} {column : Tensor κ} {index : Nat}
    {entry : Expr κ} (reads : column.ReadsOnly allowed)
    (found : column.entryAt index = .ok entry) : (Tensor.ofExpr entry).ReadsOnly allowed :=
  Tensor.readsOnly_ofExpr
    (reads.entries entry (List.mem_of_getElem? (Tensor.entryAt_eq_ok.mp found).2))

theorem defineEach_carries {column : Tensor κ} {symbols : List Symbol} (start : Nat)
    (valid : session.graph.Valid session.supply.next) (distinct : symbols.Nodup)
    (issued : ∀ symbol ∈ symbols, symbol.number < session.supply.next)
    (reads : column.ReadsOnly (Clear session.supply.next symbols))
    (new : ∀ symbol ∈ symbols, ∀ index entry, column.entryAt index = .ok entry → ∀ node,
      session.graph.nodeOf? symbol = some node → node.registered ≠ .ofExpr entry)
    (ran : ((symbols.zipIdx start).forM fun (symbol, index) => do
      define symbol (.ofExpr (← Action.ofAlgebra (column.entryAt index)))).perform session =
        (.ok done, later)) :
    Grown (· ∉ symbols) session later ∧ later.supply = session.supply ∧
      ∀ index symbol, symbols[index]? = some symbol → ∃ entry,
        column.entryAt (start + index) = .ok entry ∧ later.graph.Carries symbol (.ofExpr entry) := by
  induction symbols generalizing start session with
  | nil =>
      obtain ⟨_, rfl⟩ := Action.pure_eq_ok.mp ran
      exact ⟨Grown.refl valid, rfl, nofun⟩
  | cons head tail ih =>
      rw [List.zipIdx_cons, List.forM] at ran
      simp only [Action.bind_eq_ok, Action.ofAlgebra_eq_ok] at ran
      obtain ⟨_, middle, ⟨entry, _, ⟨found, rfl⟩, defined⟩, rest⟩ := ran
      rw [List.forall_mem_cons] at issued new
      rw [List.nodup_cons] at distinct
      have entryReads := readsOnly_entryAt reads found
      have regular := regular_of_clear entryReads le_rfl
      obtain ⟨grown, same⟩ := define_grown valid issued.1 regular defined
      have carries : middle.graph.Carries head (.ofExpr entry) := by
        refine define_carries valid regular ?_ (new.1 start entry found) defined
        intro member
        obtain ⟨atom, among, here⟩ := Tensor.mem_symbols.mp member
        exact (entryReads.atoms among).outside (here ▸ List.mem_cons_self)
      have untouched (symbol : Symbol) (member : symbol ∈ tail) : symbol ≠ head := by
        rintro rfl
        exact distinct.1 member
      rw [← same] at issued reads
      obtain ⟨later, supply, each⟩ := ih (start + 1) grown.valid distinct.2 issued.2
        (reads.mono fun _ clear => clear.mono le_rfl fun _ => List.mem_cons_of_mem _)
        (fun symbol member index entry found node live => new.2 symbol member index entry found node
          (grown.nodeOf?_eq (untouched symbol member) ▸ live)) rest
      refine ⟨?_, supply.trans same, ?_⟩
      · exact (grown.mono fun symbol absent here => absent (here ▸ List.mem_cons_self)).trans
          (later.mono fun symbol absent member => absent (List.mem_cons_of_mem _ member))
      · intro index symbol at_
        cases index with
        | zero =>
            cases at_
            refine ⟨entry, found, later.carries carries (entryReads.mono fun atom clear member => ?_)⟩
            exact clear.outside (List.mem_cons_of_mem _ member)
        | succ index =>
            obtain ⟨entry, found, carries⟩ := each index symbol at_
            exact ⟨entry, by rwa [Nat.add_right_comm, Nat.add_assoc] at found, carries⟩

omit [Exact κ] in
theorem forM_define_valid {items : List (Coordinate × Expr κ)}
    (valid : session.graph.Valid session.supply.next)
    (recorded : session.graph.Recorded session.supply.next)
    (issued : ∀ item ∈ items, item.1.position.number < session.supply.next)
    (regular : ∀ item ∈ items, item.2.Regular session.supply.next)
    (ran : (items.forM fun item => define item.1.position (.ofExpr item.2)).perform session =
      (.ok done, later)) :
    later.graph.Valid later.supply.next ∧ later.graph.Recorded later.supply.next ∧
      later.supply = session.supply := by
  induction items generalizing session with
  | nil =>
      obtain ⟨_, rfl⟩ := Action.pure_eq_ok.mp ran
      exact ⟨valid, recorded, rfl⟩
  | cons head tail ih =>
      rw [List.forM] at ran
      obtain ⟨_, middle, defined, rest⟩ := Action.bind_eq_ok.mp ran
      rw [List.forall_mem_cons] at issued regular
      have whole : (Tensor.ofExpr head.2).Regular session.supply.next :=
        ⟨rfl, List.forall_mem_singleton.mpr regular.1⟩
      obtain ⟨grown, same⟩ := define_grown valid issued.1 whole defined
      have stillRecorded : middle.graph.Recorded middle.supply.next := by
        obtain ⟨graph, added, rfl⟩ := define_eq_ok.mp defined
        exact recorded.addEquation whole.toIssued added
      rw [← same] at issued regular
      obtain ⟨laterValid, laterRecorded, supply⟩ :=
        ih grown.valid stillRecorded issued.2 regular.2 rest
      exact ⟨laterValid, laterRecorded, supply.trans same⟩

end Mechanism.Loop
