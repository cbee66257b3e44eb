import Mechanism.Proofs.Graph.Revisions
import Mechanism.Proofs.Graph.Survival

/-!
What an answer rests on: the definitions below it, the aliases that lead to them and the bindings of
inputs. When these are as they were, and the answer is made of numbers, it was the same before.
-/

open Relation (ReflTransGen)

namespace Mechanism.Graph

open Mechanism.Graph.Action

variable {κ : Type} [Scalar κ]

/-- The symbol has one definition in both graphs, and is an alias of the same. -/
structure Alike (first second : Graph κ) (symbol : Symbol) : Prop where
  definition : (second.nodeOf? symbol).map Node.value = (first.nodeOf? symbol).map Node.value
  standing : second.aliases.find? symbol = first.aliases.find? symbol

/-- The same is true of all that the symbol comes from in the first graph. -/
def SameFooting (first second : Graph κ) (symbol : Symbol) : Prop :=
  ∀ other, ReflTransGen first.Cites other symbol → Alike first second other

variable {first second : Graph κ} {symbol read : Symbol}

theorem Alike.isDefined_eq (alike : Alike first second symbol) :
    second.isDefined symbol = first.isDefined symbol := by
  have values := congrArg Option.isSome alike.definition
  rwa [Option.isSome_map, Option.isSome_map, ← Graph.isDefined_eq, ← Graph.isDefined_eq] at values

theorem Alike.nodeOf? (alike : Alike first second symbol) {node : Node κ}
    (found : first.nodeOf? symbol = some node) :
    ∃ other, second.nodeOf? symbol = some other ∧ other.value = node.value := by
  have values := alike.definition
  rw [found, Option.map_some] at values
  exact Option.map_eq_some_iff.mp values

theorem Alike.symm (alike : Alike first second symbol) : Alike second first symbol :=
  ⟨alike.definition.symm, alike.standing.symm⟩

theorem Alike.trans {third : Graph κ} (left : Alike first second symbol)
    (right : Alike second third symbol) : Alike first third symbol :=
  ⟨right.definition.trans left.definition, right.standing.trans left.standing⟩

theorem Alike.content? (alike : Alike first second symbol) :
    second.content? symbol = first.content? symbol := by
  have values := alike.definition
  unfold Graph.content?
  cases found : first.nodeOf? symbol <;> cases again : second.nodeOf? symbol <;>
    simp_all [alike.standing]

theorem SameFooting.here (footing : SameFooting first second symbol) : Alike first second symbol :=
  footing symbol .refl

theorem SameFooting.of_cites (footing : SameFooting first second symbol)
    (cites : first.Cites read symbol) : SameFooting first second read :=
  fun other below => footing other (below.tail cites)

variable {limit more : Nat}

theorem SameFooting.reads (footing : SameFooting first second symbol) (lawful : first.Lawful limit)
    (otherLawful : second.Lawful more) (reads : second.Reads read symbol) :
    first.Reads read symbol := by
  obtain ⟨node, found, member, defined⟩ := reads
  obtain ⟨other, live, same⟩ := footing.here.symm.nodeOf? found
  have among : read ∈ other.reads := by
    rwa [(lawful.regular_of_nodeOf? live).reads_eq, same,
      ← (otherLawful.regular_of_nodeOf? found).reads_eq]
  have cites := lawful.cites_of_readBy ⟨other, live, among⟩
  exact ⟨other, live, among, (footing.of_cites cites).here.isDefined_eq ▸ defined⟩

theorem SameFooting.acc (lawful : first.Lawful limit) (otherLawful : second.Lawful more)
    (founded : Acc first.Reads symbol) (footing : SameFooting first second symbol) :
    Acc second.Reads symbol := by
  induction founded with
  | intro symbol _ ih =>
      refine ⟨_, fun read reads => ?_⟩
      have former := footing.reads lawful otherLawful reads
      exact ih read former (footing.of_cites (lawful.cites_of_readBy former.readBy))

/-- The earlier session has the bindings of the later one, and no other inputs. -/
structure Precedes (before now : Session κ) : Prop where
  bindings : before.graph.store.bindings = now.graph.store.bindings
  inputs : ∀ symbol, before.graph.isInput symbol = true → now.graph.isInput symbol = true

variable {before now : Session κ}

theorem Precedes.input_of_bound (precedes : Precedes before now) (valid : before.graph.Valid limit)
    {value : Tensor κ} (bound : now.graph.store.binding? symbol = some value) :
    before.graph.isInput symbol = true :=
  valid.coherent.bound (by rwa [Store.binding?, precedes.bindings])

theorem Precedes.noInput (precedes : Precedes before now)
    (noInput : now.graph.isInput symbol = false) : before.graph.isInput symbol = false := by
  rw [← Bool.not_eq_true] at noInput ⊢
  exact fun input => noInput (precedes.inputs symbol input)

theorem Precedes.current_eq (precedes : Precedes before now) (valid : before.graph.Valid limit)
    (nowValid : now.graph.Valid more) {atom : Atom}
    (alike : Alike now.graph before.graph atom.symbol)
    (answers : now.graph.isDefined atom.symbol = true →
      answer before atom.symbol = answer now atom.symbol) :
    current before atom = current now atom := by
  have bindings : before.graph.store.binding? atom.symbol = now.graph.store.binding? atom.symbol := by
    rw [Store.binding?, precedes.bindings, Store.binding?]
  have defined := alike.isDefined_eq
  rw [current, current, bindings, defined]
  cases input : now.graph.isInput atom.symbol with
  | false =>
      rw [precedes.noInput input]
      simp only [Bool.false_eq_true, if_false]
      split
      · rename_i isDefined
        rw [answers isDefined]
      · rfl
  | true =>
      rw [nowValid.toLawful.apart input]
      cases bound : now.graph.store.binding? atom.symbol with
      | none => simp
      | some value =>
          rw [precedes.input_of_bound valid bound]
          rfl

theorem Precedes.answer_eq (precedes : Precedes before now) (valid : before.graph.Valid limit)
    (nowValid : now.graph.Valid more) (founded : Acc now.graph.Reads symbol)
    (defined : now.graph.isDefined symbol = true)
    (footing : SameFooting now.graph before.graph symbol) :
    answer before symbol = answer now symbol := by
  induction founded with
  | intro symbol below ih =>
      have founded : Acc now.graph.Reads symbol := ⟨symbol, below⟩
      have lawful := nowValid.toLawful
      obtain ⟨node, found⟩ := isDefined_iff.mp defined
      obtain ⟨other, live, same⟩ := footing.here.nodeOf? found
      rw [Graph.answer_eq nowValid found (acyclicBelow_of_acc founded),
        Graph.answer_eq valid live (acyclicBelow_of_acc
          (footing.acc lawful valid.toLawful founded)), same]
      congr 1
      apply Tensor.substitute_congr
      intro atom member
      have reads := (lawful.regular_of_nodeOf? found).mem_reads member
      have inner := footing.of_cites (lawful.cites_of_readBy ⟨node, found, reads⟩)
      apply precedes.current_eq valid nowValid inner.here
      intro live
      exact ih atom.symbol ⟨node, found, reads, live⟩ live inner

theorem liveIndex?_eq_none (undefined : first.isDefined symbol = false) :
    first.liveIndex? symbol = none := by
  simpa [isDefined] using undefined

theorem cites_of_alias (noInput : first.isInput symbol = false)
    (undefined : first.isDefined symbol = false) {target : Tensor κ}
    (found : first.aliases.find? symbol = some target) (member : read ∈ target.symbols) :
    first.Cites read symbol := by
  rw [isDefined_eq, Option.isSome_eq_false_iff, Option.isNone_iff_eq_none] at undefined
  exact ⟨noInput, target, by rw [content?, undefined, found], member⟩

def Unnumbered (tensor : Tensor κ) : Prop :=
  tensor.entries ≠ [] ∧ ∀ entry ∈ tensor.entries, entry.asNumber? = none

theorem Unnumbered.numbers? {tensor : Tensor κ} (unnumbered : Unnumbered tensor) :
    tensor.numbers? = none := by
  obtain ⟨some, all⟩ := unnumbered
  obtain ⟨head, tail, same⟩ := List.exists_cons_of_ne_nil some
  rw [Tensor.numbers?, same, List.mapM_cons, all head (same ▸ List.mem_cons_self)]
  rfl

theorem unnumbered_ofSymbol (some : 0 < symbol.shape.size) :
    Unnumbered (.ofSymbol symbol : Tensor κ) := by
  refine ⟨List.ne_nil_of_length_pos (by rwa [Tensor.length_ofSymbol]), fun entry member => ?_⟩
  obtain ⟨atom, _, rfl⟩ := List.mem_map.mp member
  rfl

theorem Unnumbered.entryOf {inner : Tensor κ} (unnumbered : Unnumbered inner)
    (some : 0 < read.shape.size) :
    Unnumbered ((Tensor.ofSymbol read).substitute (entryOf [(read, inner)])) := by
  refine ⟨List.ne_nil_of_length_pos ?_, fun entry member => ?_⟩
  · rwa [Tensor.length_substitute, Tensor.length_ofSymbol]
  · obtain ⟨original, among, rfl⟩ := List.mem_map.mp member
    obtain ⟨atom, _, rfl⟩ := List.mem_map.mp among
    rw [Expr.substitute_atom, Expr.replacementOf]
    cases found : Action.entryOf [(read, inner)] atom with
    | none => rfl
    | some entry =>
        simp only [Action.entryOf, Option.bind_eq_bind, Option.bind_eq_some_iff] at found
        obtain ⟨part, among, found⟩ := found
        obtain rfl := List.mem_singleton.mp (List.mem_of_find?_eq_some among)
        exact unnumbered.2 entry
          (List.mem_of_getElem? (Tensor.entryAt_eq_ok.mp (toOption_eq_some.mp found)).2)

theorem Precedes.renamed (precedes : Precedes before now)
    (footing : SameFooting now.graph before.graph symbol)
    (noInput : now.graph.isInput symbol = false) (undefined : now.graph.isDefined symbol = false)
    {target : Tensor κ} (found : now.graph.aliases.find? symbol = some target) :
    before.graph.isInput symbol = false ∧ before.graph.isDefined symbol = false ∧
      before.graph.aliases.find? symbol = some target :=
  ⟨precedes.noInput noInput, footing.here.isDefined_eq.trans undefined,
    footing.here.standing.trans found⟩

theorem Precedes.answer_known (precedes : Precedes before now) (valid : before.graph.Valid limit)
    (nowValid : now.graph.Valid more) (founded : now.graph.Founded now.graph.store)
    (known : now.graph.Known symbol) (footing : SameFooting now.graph before.graph symbol)
    (some : 0 < symbol.shape.size) {value : Tensor κ} (answered : answer now symbol = .ok value) :
    before.graph.Known symbol ∧ answer before symbol = .ok value ∨ Unnumbered value := by
  cases input : now.graph.isInput symbol with
  | true =>
      rw [answer_input input] at answered
      cases bound : now.graph.store.binding? symbol with
      | none =>
          rw [bound] at answered
          cases answered
          exact .inr (unnumbered_ofSymbol some)
      | some binding =>
          have isInput := precedes.input_of_bound valid bound
          refine .inl ⟨.inl isInput, ?_⟩
          rw [answer_input isInput, ← answered, Store.binding?, precedes.bindings, Store.binding?]
  | false =>
      have defined := known.resolve_left (by rw [input]; exact Bool.false_ne_true)
      have founded := acc_of_answer nowValid founded defined answered
      exact .inl ⟨.inr (footing.here.isDefined_eq.trans defined),
        (precedes.answer_eq valid nowValid founded defined footing).trans answered⟩

/-- A query goes along the same aliases to the same end, unless that is an input without a binding,
and is answered with as much fuel as there are aliases on the way. -/
theorem Precedes.perform_valueWith (precedes : Precedes before now)
    (valid : before.graph.Valid limit) (nowValid : now.graph.Valid more)
    (founded : now.graph.Founded now.graph.store) {count : Nat} {last : Symbol}
    (path : Search.Path now.graph.onward count symbol last)
    (footing : SameFooting now.graph before.graph symbol) (some : 0 < symbol.shape.size)
    {fuel : Nat} (enough : count ≤ fuel) {value : Tensor κ}
    (answered : ((valueWith (fuel + 1) symbol).perform now).1 = .ok value) :
    (Search.Path before.graph.onward count symbol last ∧ ∀ spare, count ≤ spare →
      ((valueWith (spare + 1) symbol).perform before).1 = .ok value) ∨ Unnumbered value := by
  induction path generalizing fuel value with
  | @stop symbol final =>
      by_cases known : now.graph.Known symbol
      · rw [perform_valueWith_known fuel known] at answered
        refine (precedes.answer_known valid nowValid founded known footing some answered).imp_left
          fun ⟨known, same⟩ => ⟨.stop (onward_known known), fun spare _ => ?_⟩
        rwa [perform_valueWith_known spare known]
      · rw [Known, not_or, Bool.not_eq_true, Bool.not_eq_true] at known
        obtain ⟨noInput, undefined⟩ := known
        cases found : now.graph.aliases.find? symbol with
        | none =>
            rw [perform_valueWith_unknown fuel noInput (liveIndex?_eq_none undefined) found]
              at answered
            cases answered
        | some target =>
            obtain ⟨formerNoInput, former, again⟩ := precedes.renamed footing noInput undefined found
            rw [onward_alias noInput undefined found] at final
            have blank := List.head?_eq_none_iff.mp final
            rw [perform_valueWith_blank fuel noInput (liveIndex?_eq_none undefined) found blank]
              at answered
            refine .inl ⟨.stop (by rw [onward_alias formerNoInput former again, final]),
              fun spare _ => ?_⟩
            rw [perform_valueWith_blank spare formerNoInput (liveIndex?_eq_none former) again blank]
            exact answered
  | @step count symbol other last next rest ih =>
      obtain ⟨noInput, undefined, found, single⟩ := onward_eq_some nowValid.toLawful next
      obtain ⟨formerNoInput, former, again⟩ := precedes.renamed footing noInput undefined found
      have inner := footing.of_cites (cites_of_alias noInput undefined found
        (single ▸ List.mem_singleton_self other))
      have inside : 0 < other.shape.size := by
        obtain ⟨stood, stands⟩ := nowValid.toLawful.aliases found
        have shape := congrArg Tensor.shape stands.target_eq
        simp only [Tensor.shape_ofSymbol] at shape
        rwa [shape, stands.shape_eq]
      obtain ⟨fuel, rfl⟩ := Nat.exists_eq_succ_of_ne_zero (show fuel ≠ 0 by omega)
      rw [perform_valueWith_renamed _ noInput (liveIndex?_eq_none undefined) found single] at answered
      rcases asked : (valueWith (fuel + 1) other).perform now with ⟨error | part, later⟩
      · rw [asked] at answered
        cases answered
      rw [asked] at answered
      cases answered
      rcases ih inner inside (Nat.le_of_succ_le_succ enough) (congrArg Prod.fst asked) with
        ⟨path, same⟩ | unnumbered
      · have step : before.graph.onward symbol = .some other := by
          rw [onward_alias formerNoInput former again, single]
          rfl
        refine .inl ⟨.step step path, fun spare plenty => ?_⟩
        obtain ⟨spare, rfl⟩ := Nat.exists_eq_succ_of_ne_zero (show spare ≠ 0 by omega)
        have answered := same spare (Nat.le_of_succ_le_succ plenty)
        rw [perform_valueWith_renamed _ formerNoInput (liveIndex?_eq_none former) again single]
        generalize (valueWith (spare + 1) other).perform before = outcome at answered ⊢
        obtain ⟨_ | _, _⟩ := outcome
        · cases answered
        · cases answered
          rfl
      · exact .inr (unnumbered.entryOf inside)

/-- The numbers that a symbol has at present. -/
def numbers? (session : Session κ) (symbol : Symbol) : Option (List κ) :=
  (answer session symbol).toOption.bind Tensor.numbers?

theorem numbers?_eq_some {session : Session κ} {entries : List κ} :
    numbers? session symbol = some entries ↔
      ∃ value, answer session symbol = .ok value ∧ value.numbers? = some entries := by
  simp [numbers?, Option.bind_eq_some_iff, toOption_eq_some]

theorem Precedes.numbers? {simplifier : Simplifier κ} (precedes : Precedes before now)
    (tame : simplifier.Tame) (reachable : Reachable simplifier before)
    (nowReachable : Reachable simplifier now) (footing : SameFooting now.graph before.graph symbol)
    (some : 0 < symbol.shape.size) {entries : List κ}
    (known : Graph.numbers? now symbol = .some entries) :
    Graph.numbers? before symbol = .some entries := by
  have valid := (reachable.fit tame).valid
  have nowValid := (nowReachable.fit tame).valid
  obtain ⟨value, answered, numbers⟩ := numbers?_eq_some.mp known
  obtain ⟨count, last, path, _⟩ := resolves_of_answer nowValid answered
  rw [answer, perform_valueOf] at answered
  have founded := nowReachable.attainable.founded tame.toModest
  rcases precedes.perform_valueWith valid nowValid founded path footing some (length_le_aliases path)
    answered with ⟨path, same⟩ | unnumbered
  · refine numbers?_eq_some.mpr ⟨value, ?_, numbers⟩
    rw [answer, perform_valueOf]
    exact same _ (length_le_aliases path)
  · rw [unnumbered.numbers?] at numbers
    cases numbers

/-- As long as nothing is defined and nothing is bound, no symbol gets numbers that it has not
had. -/
theorem Rests.numbers? {simplifier : Simplifier κ} (rests : Rests before now)
    (later : Later before now)
    (same : now.graph.store.revision = before.graph.store.revision) (tame : simplifier.Tame)
    (reachable : Reachable simplifier before) (nowReachable : Reachable simplifier now)
    (some : 0 < symbol.shape.size) {entries : List κ}
    (known : Graph.numbers? now symbol = .some entries) :
    Graph.numbers? before symbol = .some entries := by
  have precedes : Precedes before now := ⟨(later.bindings same).symm, later.inputs⟩
  refine precedes.numbers? tame reachable nowReachable (fun other _ => ⟨?_, ?_⟩) some known
  · have node (index : Nat) : now.graph.node? index = before.graph.node? index := by
      rw [node?, node?, rests.nodes]
    simp only [nodeOf?, liveIndex?, rests.definitions, funext node]
  · rw [rests.aliases]

/-- All that the symbol comes from is an input or has a definition. -/
def Supported (graph : Graph κ) (symbol : Symbol) : Prop :=
  ∀ other, ReflTransGen graph.Cites other symbol → graph.Known other

theorem Supported.of_bound (lawful : first.Lawful limit) (bound : first.Bound)
    (known : first.Known symbol) : first.Supported symbol := by
  intro other below
  induction below using ReflTransGen.head_induction_on with
  | refl => exact known
  | head cites _ ih =>
      obtain ⟨noInput, tensor, stands, member⟩ := cites
      obtain ⟨node, found⟩ :=
        isDefined_iff.mp (ih.resolve_left (by rw [noInput]; exact Bool.false_ne_true))
      rw [Graph.content?, found, Option.some.injEq] at stands
      subst stands
      exact (bound _ node found _ ((lawful.regular_of_nodeOf? found).reads_eq ▸ member)).symm

theorem Supported.footing (supported : first.Supported symbol)
    (alike : ∀ other, first.Known other → Alike first second other)
    (inputs : ∀ other, first.isInput other = true → second.isInput other = true) :
    SameFooting second first symbol := by
  have former : ∀ other, ReflTransGen second.Cites other symbol →
      ReflTransGen first.Cites other symbol := by
    intro other below
    induction below using ReflTransGen.head_induction_on with
    | refl => exact .refl
    | @head read reader cites _ ih =>
        obtain ⟨noInput, tensor, stands, member⟩ := cites
        rw [← Bool.not_eq_true] at noInput
        refine .head ⟨Bool.not_eq_true _ ▸ fun input => noInput (inputs reader input), tensor, ?_,
          member⟩ ih
        rw [← stands, (alike reader (supported reader ih)).content?]
  exact fun other below => (alike other (supported other (former other below))).symm

theorem Change.alike {before after : Session κ} {simplifier : Simplifier κ}
    (change : Change before after) (fit : Fit simplifier before)
    (known : before.graph.Known symbol) :
    Alike before.graph after.graph symbol ∧ after.graph.Known symbol := by
  have standing : after.graph.aliases.find? symbol = before.graph.aliases.find? symbol := by
    cases change with
    | issue | relink => rfl
    | input _ added => rcases addInput_ok added with rfl | ⟨_, rfl⟩ <;> rfl
    | bind bound =>
        obtain ⟨_, rfl⟩ := bindInput_ok bound
        rfl
    | evaluate evaluates =>
        cases evaluates with
        | refresh => rfl
    | @define _ other _ _ _ _ _ added =>
        rcases addEquation_ok added with ⟨_, rfl⟩ | ⟨_, _, noInput, undefined, rfl⟩
        · rfl
        · change (before.graph.aliases.erase other).find? symbol = _
          rw [Table.find?_erase, if_neg]
          rintro rfl
          rcases known with input | defined
          · rw [noInput] at input
            cases input
          · rw [undefined] at defined
            cases defined
  rcases known with input | defined
  · have still := change.later.inputs symbol input
    have undefined := fit.valid.toLawful.apart input
    have again := (change.fit fit).valid.toLawful.apart still
    rw [isDefined_eq, Option.isSome_eq_false_iff, Option.isNone_iff_eq_none] at undefined again
    exact ⟨⟨by rw [undefined, again], standing⟩, .inl still⟩
  · obtain ⟨node, found⟩ := isDefined_iff.mp defined
    have again := change.nodeOf? fit found
    exact ⟨⟨by rw [found, again], standing⟩, .inr (isDefined_iff.mpr ⟨node, again⟩)⟩

theorem Leads.alike {first later : Session κ} {simplifier : Simplifier κ}
    (leads : Leads (fun _ command => command.Conserves) first later) (tame : simplifier.Tame)
    (reachable : Reachable simplifier first) (known : first.graph.Known symbol) :
    Alike first.graph later.graph symbol ∧ later.graph.Known symbol := by
  induction leads with
  | start => exact ⟨⟨rfl, rfl⟩, known⟩
  | @step session command earlier admissible conserves ih =>
      have fit := (earlier.reachable reachable).fit tame
      have outcome := fit.outcome tame.toModest command admissible.issued
      generalize command.apply session = after at outcome
      cases outcome with
      | changed changes =>
          have each : ∀ {one other : Session κ}, Change one other → Fit simplifier one →
              Alike first.graph one.graph symbol ∧ one.graph.Known symbol →
                Alike first.graph other.graph symbol ∧ other.graph.Known symbol :=
            fun change fit same => (change.alike fit same.2).imp_left same.1.trans
          exact changes.invariant fit each ih
      | built => exact conserves.elim
      | reduced => exact conserves.elim

theorem Leads.settings {first later : Session κ} {simplifier : Simplifier κ}
    {allowed : Session κ → Command κ → Prop} (leads : Leads allowed first later)
    (tame : simplifier.Tame) (reachable : Reachable simplifier first) :
    later.graph.settings = first.graph.settings := by
  induction leads with
  | start => rfl
  | @step session command earlier admissible _ ih =>
      have fit := (earlier.reachable reachable).fit tame
      have outcome := fit.outcome tame.toModest command admissible.issued
      exact (outcome.settings (fit.simplifier_eq ▸ tame.toModest)).trans ih

theorem rests_build {session : Session κ} {simplifier : Simplifier κ}
    (plain : session.graph.settings.optimize = false) (tame : simplifier.Tame)
    (fit : Fit simplifier session) : Rests session (build.perform session).2 := by
  have relinked : session.graph.relink.settings.optimize = false := plain
  have same : session.graph.relink.optimized session.supply =
      ⟨session.graph.relink, session.supply, 0, 0, 0, 0⟩ := by
    rw [optimized, relinked, if_neg Bool.false_ne_true]
  rcases build_outcome fit.valid.toLawful (fit.simplifier_eq ▸ tame.toModest) with
    ⟨error, fails | fails⟩ | ⟨_, levels, report, _, succeeds⟩
  · rw [fails]
    exact .refl session
  · rw [fails]
    exact ⟨rfl, rfl, rfl⟩
  · rw [succeeds, same]
    exact ⟨rfl, rfl, rfl⟩

theorem Supported.numbers? {simplifier : Simplifier κ} (supported : before.graph.Supported symbol)
    (leads : Leads (fun _ command => command.Conserves) before now)
    (same : now.graph.store.revision = before.graph.store.revision) (tame : simplifier.Tame)
    (reachable : Reachable simplifier before) (some : 0 < symbol.shape.size) {entries : List κ}
    (known : Graph.numbers? now symbol = .some entries) :
    Graph.numbers? before symbol = .some entries := by
  have later := leads.later tame reachable
  have precedes : Precedes before now := ⟨(later.bindings same).symm, later.inputs⟩
  exact precedes.numbers? tame reachable (leads.reachable reachable)
    (supported.footing (fun _ known => (leads.alike tame reachable known).1) later.inputs) some known

end Mechanism.Graph
