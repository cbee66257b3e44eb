import Mechanism.Proofs.Graph.Footing
import Mechanism.Proofs.Loop.Running

/-!
What the check of a loop finds out: where it has numbers for all that it reads and does not refuse
the loop, the closed form has finite values, and the determinant is further from zero than the
tolerance.
-/

namespace Mechanism.Loop

variable {κ : Type} [Scalar κ]

def assignmentOf (known : Symbol → Option (List κ)) (atom : Atom) : Option κ := do
  let entries ← known atom.symbol
  entries[atom.flatIndex]?

def Geometry.placed (geometry : Geometry κ) (known : Symbol → Option (List κ)) (values : List κ) :
    Symbol → Option (List κ) :=
  (geometry.dependent.zip values).foldl
    (fun known entry => Function.update known entry.1.position (some [entry.2])) known

namespace Derivation

/-- The numbers of the symbols that the loop reads, the dependent positions apart. -/
def given (derivation : Derivation κ) (known : Symbol → Option (List κ)) :
    Symbol → Option (List κ) :=
  fun symbol => if symbol ∈ derivation.parameters then known symbol else none

/-- The closed form has finite values, and with these the determinant of the derivative by the
dependent coordinates is a finite number further from zero than the tolerance. -/
def RegularAt (derivation : Derivation κ) (tolerance : κ) (known : Symbol → Option (List κ)) :
    Prop :=
  ∃ values : List κ,
    derivation.geometry.solution.map (Expr.evaluate (assignmentOf (derivation.given known))) =
        values.map some ∧
      (∀ value ∈ values, Scalar.isFinite value = true) ∧
      ∃ entries evaluated determinant,
        derivation.jacobians.dependent.evaluate (assignmentOf
            (derivation.geometry.placed (derivation.given known) values)) = some entries ∧
          Tensor.ofNumbers derivation.jacobians.dependent.shape entries = .ok evaluated ∧
          evaluated.determinant = .ok (.num determinant) ∧
          Scalar.isFinite determinant = true ∧
          Scalar.isLess tolerance (Scalar.magnitude determinant) = true

def Numeric (derivation : Derivation κ) (session : Graph.Session κ) : Prop :=
  ∀ symbol ∈ derivation.parameters, ∃ entries, Graph.numbers? session symbol = some entries

def RegularIn (derivation : Derivation κ) (tolerance : κ) (session : Graph.Session κ) : Prop :=
  derivation.Numeric session → derivation.RegularAt tolerance (Graph.numbers? session)

/-- The numbers that the check reads in the later session are those of the earlier one. -/
def Recalls (derivation : Derivation κ) (earlier later : Graph.Session κ) : Prop :=
  ∀ symbol ∈ derivation.parameters, ∀ entries, Graph.numbers? later symbol = some entries →
    Graph.numbers? earlier symbol = some entries

variable {derivation : Derivation κ} {tolerance : κ} {earlier later : Graph.Session κ}

theorem Recalls.trans {first second third : Graph.Session κ}
    (left : derivation.Recalls first second) (right : derivation.Recalls second third) :
    derivation.Recalls first third :=
  fun symbol member entries known => left symbol member entries (right symbol member entries known)

theorem RegularIn.recall (regular : derivation.RegularIn tolerance earlier)
    (recalls : derivation.Recalls earlier later) : derivation.RegularIn tolerance later := by
  intro numeric
  have given : derivation.given (Graph.numbers? earlier) =
      derivation.given (Graph.numbers? later) := by
    funext symbol
    rw [Derivation.given, Derivation.given]
    split
    · rename_i member
      obtain ⟨entries, known⟩ := numeric symbol member
      rw [known, recalls symbol member entries known]
    · rfl
  have former : derivation.Numeric earlier := fun symbol member => by
    obtain ⟨entries, known⟩ := numeric symbol member
    exact ⟨entries, recalls symbol member entries known⟩
  have regularAt := regular former
  unfold RegularAt at regularAt ⊢
  rwa [given] at regularAt

theorem Regular.sized {limit : Nat} (regular : derivation.Regular limit) :
    ∀ symbol ∈ derivation.parameters, 0 < symbol.shape.size := by
  intro symbol member
  have read := Grouping.mem_distinct.mp (List.mem_filter.mp member).1
  obtain ⟨atom, within, rfl⟩ : ∃ atom : Atom, atom.Regular limit ∧ atom.symbol = symbol := by
    rcases List.mem_append.mp read with solved | differentiated
    · obtain ⟨expr, among, reads⟩ := List.mem_flatMap.mp solved
      obtain ⟨atom, occurs, same⟩ := List.mem_map.mp (Grouping.mem_distinct.mp reads)
      exact ⟨atom, regular.geometry.solution expr among atom (Expr.mem_atoms.mp occurs), same⟩
    · obtain ⟨atom, occurs, same⟩ := Tensor.mem_symbols.mp differentiated
      obtain ⟨entry, among, occurs⟩ := Tensor.mem_atoms.mp occurs
      exact ⟨atom, regular.dependent.2 entry among atom occurs, same⟩
  exact Nat.zero_lt_of_lt within.1

theorem Regular.recalls {limit : Nat} {simplifier : Simplifier κ}
    (regular : derivation.Regular limit) (rests : Graph.Rests earlier later)
    (follows : Graph.Later earlier later)
    (same : later.graph.store.revision = earlier.graph.store.revision) (tame : simplifier.Tame)
    (reachable : Graph.Reachable simplifier earlier)
    (laterReachable : Graph.Reachable simplifier later) : derivation.Recalls earlier later :=
  fun symbol member _ => rests.numbers? follows same tame reachable laterReachable
    (regular.sized symbol member)

end Derivation

section

variable {session later : Graph.Session κ} {simplifier : Simplifier κ}

theorem numbers?_queried (tame : simplifier.Tame) (reachable : Graph.Reachable simplifier session)
    (laterReachable : Graph.Reachable simplifier later) (queried : Graph.Queried session later)
    {symbol : Symbol} (some : 0 < symbol.shape.size) {entries : List κ}
    (known : Graph.numbers? session symbol = .some entries) :
    Graph.numbers? later symbol = .some entries := by
  have precedes : Graph.Precedes later session := by
    refine ⟨queried.grown.bindings, fun symbol input => ?_⟩
    rw [queried.graph] at input
    exact input
  refine precedes.numbers? tame laterReachable reachable (fun other _ => ?_) some known
  exact ⟨queried.sameDefinitions.1.values other, by rw [queried.graph]⟩

theorem perform_numbersOf (session : Graph.Session κ) (symbol : Symbol) :
    ((Graph.numbersOf symbol).perform session).1 =
      (Graph.answer session symbol).map Tensor.numbers? := by
  rw [Graph.numbersOf, Graph.Action.perform_bind, Graph.answer]
  rcases (Graph.valueOf symbol).perform session with ⟨_ | _, _⟩ <;> rfl

theorem numbersOf_eq_some (tame : simplifier.Tame)
    (reachable : Graph.Reachable simplifier session) {symbols : List Symbol}
    (sized : ∀ symbol ∈ symbols, 0 < symbol.shape.size) {entries : Symbol → List κ}
    (numeric : ∀ symbol ∈ symbols, Graph.numbers? session symbol = some (entries symbol))
    (known : Numbers κ) : ∃ numbers later,
      (numbersOf symbols known).run session = (some numbers, later) ∧
        ∀ symbol, numbers.find? symbol =
          if symbol ∈ symbols then some (entries symbol) else known.find? symbol := by
  induction symbols generalizing session known with
  | nil => exact ⟨known, session, rfl, fun _ => rfl⟩
  | cons head tail ih =>
      rw [List.forall_mem_cons] at sized numeric
      obtain ⟨value, answered, numbers⟩ := Graph.numbers?_eq_some.mp numeric.1
      have found := perform_numbersOf session head
      have queried := Graph.numbersOf_queried (reachable.fit tame).valid head
      have still : Graph.Reachable simplifier
          ((Graph.Command.queryNumbers head).apply session) := .step _ reachable trivial
      rw [Graph.Command.apply, Graph.Command.action, Graph.perform_ignore] at still
      rcases outcome : (Graph.numbersOf head).perform session with ⟨result, middle⟩
      rw [outcome] at found queried still
      simp only [answered, Except.map, numbers] at found
      subst found
      rw [run_numbersOf_numbers outcome]
      obtain ⟨table, later, ran, lookup⟩ := ih still sized.2
        (fun symbol member => numbers?_queried tame reachable still queried (sized.2 symbol member)
          (numeric.2 symbol member)) (known.insert head (entries head))
      refine ⟨table, later, ran, fun symbol => ?_⟩
      rw [lookup, Table.find?_insert]
      by_cases same : head = symbol
      · subst same
        simp
      · simp [same, Ne.symm same]

end

theorem placed_eq (geometry : Geometry κ) (numbers : Numbers κ) (values : List κ) :
    ((geometry.dependent.zip (values.map some)).foldl (fun known entry =>
      match entry.2 with
      | some value => known.insert entry.1.position [value]
      | none => known) numbers).find? = geometry.placed numbers.find? values := by
  unfold Geometry.placed
  generalize geometry.dependent = coordinates
  induction values generalizing coordinates numbers with
  | nil => simp
  | cons value values ih =>
      cases coordinates with
      | nil => rfl
      | cons head tail =>
          simp only [List.map_cons, List.zip_cons_cons, List.foldl_cons]
          rw [ih]
          congr 1
          funext symbol
          rw [Table.find?_insert, Function.update_apply]
          simp [eq_comm]

theorem exists_values {solved : List (Option κ)}
    (finite : (solved.all fun value => value.any Scalar.isFinite) = true) :
    ∃ values : List κ, solved = values.map some ∧
      ∀ value ∈ values, Scalar.isFinite value = true := by
  induction solved with
  | nil => exact ⟨[], rfl, nofun⟩
  | cons head tail ih =>
      rw [List.all_cons, Bool.and_eq_true] at finite
      obtain ⟨values, rfl, each⟩ := ih finite.2
      cases head with
      | none => exact absurd finite.1 Bool.false_ne_true
      | some value => exact ⟨value :: values, rfl, List.forall_mem_cons.mpr ⟨finite.1, each⟩⟩

theorem determinantAt_eq_some {numbers : Numbers κ} {jacobian : Tensor κ} {determinant : κ}
    (found : determinantAt numbers jacobian = .ok (some determinant)) :
    ∃ entries evaluated, jacobian.evaluate numbers.assignment = some entries ∧
      Tensor.ofNumbers jacobian.shape entries = .ok evaluated ∧
        evaluated.determinant = .ok (.num determinant) := by
  unfold determinantAt at found
  split at found
  · cases found
  · rename_i entries evaluates
    obtain ⟨evaluated, made, value, determined, same⟩ := by
      simpa only [bind_eq_ok] using found
    cases value <;> cases same
    exact ⟨entries, evaluated, evaluates, made, determined⟩

theorem regularAt_of_admits {derivation : Derivation κ} {settings : Settings κ}
    {numbers : Numbers κ} {configuration : Configuration κ}
    {known : Symbol → Option (List κ)} (lookup : numbers.find? = derivation.given known)
    (found : derivation.configurationAt numbers = .ok configuration)
    (admits : settings.admits configuration.determinant = true) :
    derivation.RegularAt settings.tolerance known := by
  simp only [Settings.admits, Option.any_eq_true, Bool.and_eq_true] at admits
  obtain ⟨determinant, determined, finite, further⟩ := admits
  simp only [Derivation.configurationAt] at found
  split at found
  · rename_i all
    obtain ⟨values, solved, each⟩ := exists_values all
    obtain ⟨_, evaluates, same⟩ := bind_eq_ok.mp found
    cases same
    subst determined
    obtain ⟨entries, evaluated, evaluates, made, determined⟩ := determinantAt_eq_some evaluates
    rw [solved] at evaluates
    refine ⟨values, ?_, each, entries, evaluated, determinant, ?_, made, determined, finite, further⟩
    · rw [← lookup]
      exact solved
    · rw [← lookup, ← placed_eq]
      exact evaluates
  · cases found
    cases determined

theorem regularIn_of_check {simplifier : Simplifier κ} (tame : simplifier.Tame)
    {session later : Graph.Session κ} (reachable : Graph.Reachable simplifier session)
    {name : String} {settings : Settings κ} {derivation : Derivation κ}
    (checked : (checkRegularity name settings derivation).perform session = (.ok ⟨⟩, later))
    (sized : ∀ symbol ∈ derivation.parameters, 0 < symbol.shape.size) :
    derivation.RegularIn settings.tolerance session := by
  intro numeric
  choose! entries numeric using numeric
  obtain ⟨numbers, middle, ran, lookup⟩ := numbersOf_eq_some tame reachable sized numeric ∅
  have known : numbers.find? = derivation.given (Graph.numbers? session) := by
    funext symbol
    rw [lookup, Derivation.given]
    split
    · rename_i member
      rw [numeric symbol member]
    · rfl
  unfold checkRegularity at checked
  obtain ⟨found, between, asked, rest⟩ := Action.bind_eq_ok.mp checked
  have same : (numbersOf derivation.parameters ∅).run session = (found, between) := by
    cases asked
    rfl
  obtain rfl := (Prod.mk.inj (ran.symm.trans same)).1
  simp only [Action.bind_eq_ok, Action.ofAlgebra_eq_ok] at rest
  obtain ⟨configuration, _, ⟨configured, rfl⟩, admitted⟩ := rest
  refine regularAt_of_admits known configured ?_
  by_contra refused
  rw [Bool.not_eq_true] at refused
  simp only [refused] at admitted
  cases admitted

end Mechanism.Loop
